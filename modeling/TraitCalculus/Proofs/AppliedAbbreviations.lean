import Mathlib
import TraitCalculus.Proofs.DrawnNames
import TraitCalculus.Proofs.NamelessExpansion
import TraitCalculus.Proofs.NormalForms

/-! An application of an abbreviation is its definition, written out. Resolution expands the
nameless form of a type as long as no quantifier of the type is over the name of a basic type:
an abbreviation is put under quantifiers as it stands, and basic types are all that it leaves free.
The order of the two steps does not matter then. Resolution of an applied type, which substitutes
in resolved types, leaves what resolution of the type with its argument written out leaves. -/
namespace TraitCalculus

/-- What a name stands for where the names `bound` are variables. -/
def Aliases.meaning (aliases : Aliases) (bound : List String) (x : String) : Option Nameless :=
  if x ∈ Ty.basicNames ∨ x ∈ bound then some (.free x) else (aliases.lookup x).map (Ty.nameless [])

namespace Ty

variable {aliases : Aliases} {bound : List String}

/-- No quantifier of the type is over the name of a basic type. -/
def SparesBasic (t : Ty) : Prop := ∀ x ∈ t.binders, x ∉ basicNames

theorem expand_name (line : Option Nat) (x : String) {xs : List String} {k : Nat}
    (ha : Aliases.Within k aliases) (hxs : ∀ w ∈ xs, w ∉ basicNames) :
    (((name line x).resolve aliases (xs ++ bound)).run k).toOption.map (·.1.nameless xs) =
      ((name line x).nameless xs).expand (aliases.meaning bound) := by
  by_cases hx : x ∈ xs
  · have hname : resolveName aliases (xs ++ bound) line x = .ok (name line x) :=
      if_pos (.inr (List.mem_append_left bound hx))
    rw [resolve, hname, nameless, if_pos hx]
    exact congrArg some (if_pos hx)
  · by_cases hfree : x ∈ basicNames ∨ x ∈ bound
    · have hname : resolveName aliases (xs ++ bound) line x = .ok (name line x) :=
        if_pos (hfree.imp_right (List.mem_append_right xs))
      rw [resolve, hname, nameless, if_neg hx, Nameless.expand, Aliases.meaning, if_pos hfree]
      exact congrArg some (if_neg hx)
    · have hbound : ¬(x ∈ basicNames ∨ x ∈ xs ++ bound) := by
        rw [List.mem_append]
        tauto
      rw [resolve, resolveName, if_neg hbound, nameless, if_neg hx, Nameless.expand,
        Aliases.meaning, if_neg hfree]
      cases halias : aliases.lookup x with
      | none => rfl
      | some t =>
        -- the quantifiers around the name bind nothing in what it stands for
        have hclosed : ∀ w ∈ xs, w ∉ t.free := fun w hw hwt =>
          hxs w hw ((ha _ (Assoc.mem_of_lookup halias)).inScope w hwt)
        exact congrArg some (nameless_eq_nil t xs hclosed)

/-- A resolved type at a resolved argument. -/
def applyTo (line : Option Nat) (fn arg : Ty) : Resolve Ty :=
  match fn with
  | all _ x _ body => Resolve.ofFresh (body.subst x arg)
  | found => throw (.notQuantified line found)

theorem resolve_app (line : Option Nat) (fn arg : Ty) :
    (app line fn arg).resolve aliases bound = (do
      let fn ← fn.resolve aliases bound
      let arg ← arg.resolve aliases bound
      applyTo line fn arg) := by
  rw [resolve]
  rfl

theorem applied_nameless (line : Option Nat) (xs : List String) {fn arg : Ty} {k : Nat}
    {F : List String} (hfn : fn.Within k F) (harg : arg.Within k F) :
    ((applyTo line fn arg).run k).toOption.map (·.1.nameless xs) =
      (fn.nameless xs).applied (arg.nameless xs) := by
  cases fn with
  | all l x bounds body =>
    obtain ⟨hx, hbody⟩ := Within.all_iff.mp hfn
    have hfree : ∀ w ∈ arg.free, OldName k w := fun w hw =>
      harg.old w (free_subset_names arg w hw)
    exact congrArg some (nameless_instance body arg x xs hx hfree hbody.old)
  | name l x =>
    rw [nameless]
    split_ifs
    · rfl
    · rfl
  | _ => rfl

/-- Resolution under quantifiers over `xs` expands the nameless form, and fails where that has no
expansion. -/
theorem expand_nameless (t : Ty) {xs : List String} {k : Nat} (ha : Aliases.Within k aliases)
    (hxs : ∀ w ∈ xs, w ∉ basicNames) (hold : ∀ w ∈ t.names, OldName k w) (ht : t.SparesBasic) :
    ((t.resolve aliases (xs ++ bound)).run k).toOption.map (·.1.nameless xs) =
      (t.nameless xs).expand (aliases.meaning bound) := by
  have hF : ∀ w ∈ basicNames ++ (xs ++ bound), w ∈ basicNames ++ (xs ++ bound) := fun _ => id
  induction t using Ty.induction generalizing xs k with
  | name line x => exact expand_name line x ha hxs
  | all line x bounds body ih =>
    obtain ⟨hx, hbody⟩ := List.forall_mem_cons.mp ht
    have hrun := ih ha (List.forall_mem_cons.mpr ⟨hx, hxs⟩)
      (fun w hw => hold w (List.mem_cons_of_mem x hw)) hbody fun _ => id
    rw [resolve, toOption_run_bind, nameless, Nameless.expand, ← hrun, List.cons_append]
    cases (body.resolve aliases (x :: (xs ++ bound))).run k with
    | error e => rfl
    | ok r => rfl
  | arrow line dom cod ihd ihc =>
    obtain ⟨hdold, hcold⟩ := List.forall_mem_append.mp hold
    obtain ⟨hd, hc⟩ := List.forall_mem_append.mp ht
    rw [resolve, nameless, Nameless.expand, ← ihd ha hxs hdold hd hF]
    cases hdom : (dom.resolve aliases (xs ++ bound)).run k with
    | error e =>
      rw [toOption_run_bind, hdom]
      rfl
    | ok r =>
      obtain ⟨dom', k₁⟩ := r
      obtain ⟨hk, -⟩ := within_resolve dom hF ha hdold hdom
      rw [run_bind_of_ok hdom, toOption_run_bind,
        ← ihc (ha.later hk) hxs (fun w hw => (hcold w hw).mono hk) hc hF]
      cases (cod.resolve aliases (xs ++ bound)).run k₁ with
      | error e => rfl
      | ok r => rfl
  | app line fn arg ihf iha =>
    obtain ⟨hfold, haold⟩ := List.forall_mem_append.mp hold
    obtain ⟨hf, harg⟩ := List.forall_mem_append.mp ht
    rw [resolve_app, nameless, Nameless.expand, ← ihf ha hxs hfold hf hF]
    cases hfn : (fn.resolve aliases (xs ++ bound)).run k with
    | error e =>
      rw [toOption_run_bind, hfn]
      rfl
    | ok r =>
      obtain ⟨fn', k₁⟩ := r
      obtain ⟨hk₁, hwf⟩ := within_resolve fn hF ha hfold hfn
      rw [run_bind_of_ok hfn,
        ← iha (ha.later hk₁) hxs (fun w hw => (haold w hw).mono hk₁) harg hF]
      cases harg' : (arg.resolve aliases (xs ++ bound)).run k₁ with
      | error e =>
        rw [toOption_run_bind, harg']
        rfl
      | ok r =>
        obtain ⟨arg', k₂⟩ := r
        obtain ⟨hk₂, hwa⟩ := within_resolve arg hF (ha.later hk₁)
          (fun w hw => (haold w hw).mono hk₁) harg'
        rw [run_bind_of_ok harg']
        exact applied_nameless line xs (hwf.later hk₂) hwa
  | list line elem ih =>
    rw [resolve, toOption_run_bind, nameless, Nameless.expand, ← ih ha hxs hold ht hF]
    cases (elem.resolve aliases (xs ++ bound)).run k with
    | error e => rfl
    | ok r => rfl
  | emptyList => rfl
  | record line fields ih =>
    rw [resolve, toOption_run_bind, nameless, Nameless.expand]
    suffices hfs : ((resolveFields aliases (xs ++ bound) fields).run k).toOption.map
        (fun r => namelessFields xs r.1) =
          Nameless.expandFields (aliases.meaning bound) (namelessFields xs fields) by
      rw [← hfs]
      cases (resolveFields aliases (xs ++ bound) fields).run k with
      | error e => rfl
      | ok r => rfl
    have hfold : ∀ f ∈ fields, ∀ w ∈ f.2.names, OldName k w :=
      fun f hf w hw => hold w (mem_namesFields.mpr ⟨f, hf, hw⟩)
    have hft : ∀ f ∈ fields, f.2.SparesBasic :=
      fun f hf w hw => ht w (mem_bindersFields.mpr ⟨f, hf, hw⟩)
    clear hold ht
    induction fields generalizing k with
    | nil => rfl
    | cons f fields ihs =>
      obtain ⟨hfo, hfso⟩ := List.forall_mem_cons.mp hfold
      obtain ⟨hf, hfs⟩ := List.forall_mem_cons.mp hft
      rw [resolveFields, namelessFields, Nameless.expandFields,
        ← ih f List.mem_cons_self ha hxs hfo hf hF]
      cases hhead : (f.2.resolve aliases (xs ++ bound)).run k with
      | error e =>
        rw [toOption_run_bind, hhead]
        rfl
      | ok r =>
        obtain ⟨t', k₁⟩ := r
        obtain ⟨hk, -⟩ := within_resolve f.2 hF ha hfo hhead
        rw [run_bind_of_ok hhead, toOption_run_bind,
          ← ihs (fun g hg => ih g (List.mem_cons_of_mem f hg)) (ha.later hk)
            (fun g hg w hw => (hfso g hg w hw).mono hk) hfs]
        cases (resolveFields aliases (xs ++ bound) fields).run k₁ with
        | error e => rfl
        | ok r => rfl

/-- `t` has no name that is still to be drawn, and no quantifier over the name of a basic type. -/
structure Apart (k : Nat) (t : Ty) : Prop where
  old : ∀ w ∈ t.names, OldName k w
  spares : t.SparesBasic

theorem expand_of_run {t t' : Ty} {xs : List String} {k k' : Nat} (ha : Aliases.Within k aliases)
    (hxs : ∀ w ∈ xs, w ∉ basicNames) (ht : t.Apart k)
    (h : (t.resolve aliases (xs ++ bound)).run k = .ok (t', k')) :
    (t.nameless xs).expand (aliases.meaning bound) = some (t'.nameless xs) := by
  rw [← expand_nameless t ha hxs ht.old ht.spares, h]
  rfl

theorem run_of_expand {t : Ty} {u : Nameless} {k : Nat} (ha : Aliases.Within k aliases)
    (ht : t.Apart k) (h : (t.nameless []).expand (aliases.meaning bound) = some u) :
    ∃ t' k', (t.resolve aliases bound).run k = .ok (t', k') ∧ t'.nameless [] = u := by
  have hrun : ((t.resolve aliases bound).run k).toOption.map (·.1.nameless []) = some u :=
    (expand_nameless t ha (by simp) ht.old ht.spares).trans h
  cases hr : (t.resolve aliases bound).run k with
  | error e =>
    rw [hr] at hrun
    cases hrun
  | ok r =>
    rw [hr] at hrun
    exact ⟨r.1, r.2, rfl, Option.some.inj hrun⟩

end Ty

namespace Aliases

theorem meaning_cons_self (aliases : Aliases) (bound : List String) (a : String) :
    aliases.meaning (a :: bound) a = some (.free a) :=
  if_pos (.inr List.mem_cons_self)

/-- A variable hides an abbreviation of its name and nothing else. It does not stand in what other
names mean. -/
theorem meaning_cons_of_ne {aliases : Aliases} {bound : List String} {a y : String}
    {u : Nameless} {k : Nat} (hw : Aliases.Within k aliases) (ha : a ∉ Ty.basicNames) (hy : y ≠ a)
    (h : aliases.meaning (a :: bound) y = some u) :
    aliases.meaning bound y = some u ∧ a ∉ u.freeNames := by
  have hiff : y ∈ Ty.basicNames ∨ y ∈ a :: bound ↔ y ∈ Ty.basicNames ∨ y ∈ bound := by
    rw [List.mem_cons, or_iff_right hy]
  simp only [meaning, hiff] at h ⊢
  split_ifs at h ⊢ with hfree
  · obtain rfl := Option.some.inj h
    exact ⟨rfl, by simpa [Nameless.freeNames] using Ne.symm hy⟩
  · obtain ⟨t, ht, rfl⟩ := Option.map_eq_some_iff.mp h
    refine ⟨h, ?_⟩
    rw [← Ty.mem_free_iff_nameless]
    exact fun hat => ha ((hw _ (Assoc.mem_of_lookup ht)).inScope a hat)

/-- The abbreviations at a point between two declarations of a text, and the number of names that
have been drawn there. -/
def Reached (aliases : Aliases) (k : Nat) : Prop :=
  ∃ code p ds es done, Program.desugarText code = .ok p ∧ p.stmts = ds ++ es ∧
    (ds.foldlM Decl.step ([], [])).run 0 = .ok ((aliases, done), k)

end Aliases

namespace Decl

theorem within_step {d : Decl} {table table' : Aliases × List Stmt} {k k' : Nat} (hd : d.Source)
    (ha : Aliases.Within k table.1) (h : (step table d).run k = .ok (table', k')) :
    Aliases.Within k' table'.1 := by
  cases d with
  | typedef line x t =>
    obtain ⟨t', ht, rfl⟩ := run_bind_pure_eq_ok h
    have hF : ∀ w ∈ Ty.basicNames ++ [], w ∈ Ty.basicNames := by simp
    obtain ⟨hk, hw⟩ := t.within_resolve hF ha (fun w hw => (hd w hw).old k) ht
    exact (ha.later hk).insert x hw
  | stmt s =>
    obtain ⟨s', hs, rfl⟩ := run_bind_pure_eq_ok h
    obtain ⟨hk, -⟩ := s.resolved (fun _ => List.mem_append_left s.lamNames)
      (fun _ => List.mem_append_right Ty.basicNames) ha hd hs
    exact ha.later hk

theorem within_foldlM {ds : List Decl} {table table' : Aliases × List Stmt} {k k' : Nat}
    (hds : ∀ d ∈ ds, d.Source) (ha : Aliases.Within k table.1)
    (h : (ds.foldlM step table).run k = .ok (table', k')) : Aliases.Within k' table'.1 := by
  induction ds generalizing table k with
  | nil =>
    obtain ⟨rfl, rfl⟩ := run_pure_eq_ok h
    exact ha
  | cons d ds ih =>
    rw [List.foldlM_cons] at h
    obtain ⟨table₁, k₁, hd, hrest⟩ := run_bind_eq_ok h
    obtain ⟨hsource, hsources⟩ := List.forall_mem_cons.mp hds
    exact ih hsources (within_step hsource ha hd) hrest

end Decl

theorem Aliases.Reached.within {aliases : Aliases} {k : Nat} (h : aliases.Reached k) :
    Aliases.Within k aliases := by
  obtain ⟨code, p, ds, es, done, hp, hsplit, hfold⟩ := h
  have hds : ∀ d ∈ ds, d.Source := fun d hd =>
    Program.source_desugarText hp d (hsplit ▸ List.mem_append_left es hd)
  have hstart : Aliases.Within 0 [] := fun p hp => nomatch hp
  exact Decl.within_foldlM hds hstart hfold

namespace Ty

variable {aliases : Aliases} {bound : List String}

/-- The second type stands for the first one: it is the same, or the name of an abbreviation that
means the same. -/
inductive StandsFor (aliases : Aliases) (bound : List String) (k : Nat) (t : Ty) : Ty → Prop
  | itself : StandsFor aliases bound k t t
  | abbreviation {line : Option Nat} {x : String} {stored t' : Ty} {k' : Nat} (hx : x ∉ basicNames)
      (hbound : x ∉ bound) (hstored : aliases.lookup x = some stored)
      (ht : (t.resolve aliases bound).run k = .ok (t', k')) (hα : stored.AlphaEq t') :
      StandsFor aliases bound k t (name line x)

theorem StandsFor.expand_eq {t f : Ty} {k : Nat} (h : StandsFor aliases bound k t f)
    (ha : Aliases.Within k aliases) (ht : t.Apart k) :
    (f.nameless []).expand (aliases.meaning bound) =
      (t.nameless []).expand (aliases.meaning bound) := by
  cases h with
  | itself => rfl
  | @abbreviation line x stored t' k' hx hbound hstored hrun hα =>
    have hexpand : (t.nameless []).expand (aliases.meaning bound) = some (t'.nameless []) :=
      expand_of_run ha (by simp) ht hrun
    rw [hexpand, ← hα]
    simp [nameless, Nameless.expand, Aliases.meaning, hx, hbound, hstored]

/-- What an applied type means: the argument, once resolved, in place of the variable. -/
theorem expand_app {line line' : Option Nat} {a : String} {bounds : List String}
    {body body' arg arg' f : Ty} {k i i' : Nat} (hw : Aliases.Within k aliases)
    (hq : (all line a bounds body).Apart k) (harg : arg.Apart k)
    (hbody : (body.resolve aliases (a :: bound)).run k = .ok (body', i))
    (hrun : (arg.resolve aliases bound).run k = .ok (arg', i'))
    (hf : StandsFor aliases bound k (all line a bounds body) f) :
    ((app line' f arg).nameless []).expand (aliases.meaning bound) =
      some ((body'.nameless []).subst a (arg'.nameless [])) := by
  obtain ⟨hold, hold'⟩ := List.forall_mem_cons.mp hq.old
  obtain ⟨ha, hspares⟩ := List.forall_mem_cons.mp hq.spares
  have hbody' : (body.nameless [a]).expand (aliases.meaning bound) = some (body'.nameless [a]) :=
    expand_of_run hw (by simpa using ha) ⟨hold', hspares⟩ hbody
  have harg' : (arg.nameless []).expand (aliases.meaning bound) = some (arg'.nameless []) :=
    expand_of_run hw (by simp) harg hrun
  have happly : (body'.nameless [a]).apply (arg'.nameless []) 0 =
      (body'.nameless []).subst a (arg'.nameless []) := by
    rw [apply_nameless, Nameless.close_eq_self _ [] 0 (by simp)]
  rw [nameless, Nameless.expand, hf.expand_eq hw hq, nameless, Nameless.expand, hbody', harg',
    ← happly]
  rfl

/-- Resolution may come before or after the argument is written out. Where `body` resolves with
the variable `a` and `arg` without it, so does the application of the quantified type, given as
such or by an abbreviation of it; and so does every result of writing `arg` in place of `a` in
`body`, with an alpha-equivalent outcome. -/
theorem resolve_writtenOut {k : Nat} (h : aliases.Reached k) {j : Nat} (hj : k ≤ j)
    {line line' : Option Nat} {a : String} {bounds : List String} {body arg f : Ty}
    (hq : (all line a bounds body).Apart j) (happ : (app line' f arg).Apart j)
    (hbody : ∃ r, (body.resolve aliases (a :: bound)).run j = .ok r)
    (harg : ∃ r, (arg.resolve aliases bound).run j = .ok r)
    (hf : StandsFor aliases bound j (all line a bounds body) f) :
    ∃ t i, ((app line' f arg).resolve aliases bound).run j = .ok (t, i) ∧
      ∀ u i, Replaced a arg body u → k ≤ i → u.Apart i →
        ∃ t' i', (u.resolve aliases bound).run i = .ok (t', i') ∧ t.AlphaEq t' := by
  obtain ⟨⟨body', i₁⟩, hbody⟩ := hbody
  obtain ⟨⟨arg', i₂⟩, harg⟩ := harg
  have hw : Aliases.Within j aliases := h.within.later hj
  have hargApart : arg.Apart j :=
    ⟨(List.forall_mem_append.mp happ.old).2, (List.forall_mem_append.mp happ.spares).2⟩
  obtain ⟨t, i, hrun, ht⟩ := run_of_expand hw happ (expand_app hw hq hargApart hbody harg hf)
  refine ⟨t, i, hrun, ?_⟩
  intro u j' hu hj' hapart
  obtain ⟨ha, hspares⟩ := List.forall_mem_cons.mp hq.spares
  have hbodyApart : body.Apart j := ⟨(List.forall_mem_cons.mp hq.old).2, hspares⟩
  -- outside of the quantified type, its variable is a name like the others
  have hvar : (body.nameless []).expand (aliases.meaning (a :: bound)) =
      some (body'.nameless []) := expand_of_run hw (by simp) hbodyApart hbody
  have hwritten : (u.nameless []).expand (aliases.meaning bound) =
      some ((body'.nameless []).subst a (arg'.nameless [])) := by
    rw [hu.nameless_eq]
    exact Nameless.expand_subst _ (expand_of_run hw (by simp) hargApart harg)
      (below_nameless arg' []) (aliases.meaning_cons_self bound a)
      (fun y v hy => Aliases.meaning_cons_of_ne hw ha hy) hvar
  obtain ⟨t', i', hrun', ht'⟩ := run_of_expand (h.within.later hj') hapart hwritten
  exact ⟨t', i', hrun', ht.trans ht'.symm⟩

/-- Two abbreviations, the second of which applies the first one under a quantifier. -/
def chainedSample : String :=
  "type K = forall a. forall b. a -> b;\n" ++ "type F = forall a. forall b. K a -> b;\n"

/-- What the second abbreviation quantifies, as it is written. -/
def chainedBody : Ty :=
  all (some 2) "b" []
    (arrow (some 2) (app (some 2) (name (some 2) "K") (name (some 2) "a")) (name (some 2) "b"))

def chainedAliases : Aliases :=
  [("K", all (some 1) "a" [] (all (some 1) "b" []
      (arrow none (name (some 1) "a") (name (some 1) "b")))),
    ("F", all (some 2) "a" [] (all (some 2) "b" []
      (arrow none (all (some 1) "b" [] (arrow none (name (some 2) "a") (name (some 1) "b")))
        (name (some 2) "b"))))]

theorem reached_chained : chainedAliases.Reached 0 := by
  refine ⟨chainedSample, ⟨1, [.typedef 1 "K" ?_, .typedef 2 "F" ?_]⟩, _, [], [], ?_,
    (List.append_nil _).symm, ?_⟩
  · exact all (some 1) "a" [] (all (some 1) "b" []
      (arrow (some 1) (name (some 1) "a") (name (some 1) "b")))
  · exact all (some 2) "a" [] chainedBody
  · cbv
  · cbv

/-- The same with `b` written in place of `a`, for which the quantifier over `b` got another
name. -/
def chainedWritten : Ty :=
  all (some 2) "c" []
    (arrow (some 2) (app (some 2) (name (some 2) "K") (name none "b")) (name none "c"))

theorem replaced_chained : Replaced "a" (name none "b") chainedBody chainedWritten := by
  apply Replaced.renamed (by decide) (by decide) (by decide) (by decide)
  · exact .arrow (.app (.other (by decide)) (.other (by decide))) .here
  · exact .arrow (.app (.other (by decide)) .here) (.other (by decide))

theorem Apart.of_source {t : Ty} (hsource : ∀ w ∈ t.names, '$' ∉ w.toList)
    (hspares : ∀ w ∈ t.binders, w ∉ basicNames) : t.Apart 0 :=
  ⟨fun w hw => SourceName.old (hsource w hw) 0, hspares⟩

/-- The second abbreviation at `b`, where `b` is a variable. -/
theorem resolve_writtenOut_chained :
    ∃ t i t' i', ((app none (name none "F") (name none "b")).resolve chainedAliases ["b"]).run 0 =
        .ok (t, i) ∧
      (chainedWritten.resolve chainedAliases ["b"]).run 0 = .ok (t', i') ∧ t.AlphaEq t' := by
  have hq : (all (some 2) "a" [] chainedBody).Apart 0 := .of_source (by decide) (by decide)
  have happ : (app none (name none "F") (name none "b")).Apart 0 :=
    .of_source (by decide) (by decide)
  have hstands : StandsFor chainedAliases ["b"] 0 (all (some 2) "a" [] chainedBody)
      (name none "F") :=
    .abbreviation (by decide) (by decide) rfl (by cbv) rfl
  obtain ⟨t, i, hrun, hwritten⟩ :=
    resolve_writtenOut reached_chained (le_refl 0) hq happ ⟨_, by cbv⟩ ⟨_, by cbv⟩ hstands
  obtain ⟨t', i', hrun', hα⟩ := hwritten chainedWritten 0 replaced_chained (le_refl 0)
    (.of_source (by decide) (by decide))
  exact ⟨t, i, t', i', hrun, hrun', hα⟩

/-- A quantifier over the name of a basic type, around an abbreviation of that type. -/
def capturedSample : String := "type S = Int;\n" ++ "x = 5: (forall Int. S) Bool;\n"

def capturedType : Ty :=
  app (some 2) (all (some 2) "Int" [] (name (some 2) "S")) (name (some 2) "Bool")

/-- The abbreviation does not hold the variable, but what it stands for is captured. -/
theorem resolve_captured : ∃ aliases : Aliases, aliases.Reached 0 ∧
    (∃ r, ((name (some 2) "S").resolve aliases ["Int"]).run 0 = .ok r) ∧
    Replaced "Int" (name (some 2) "Bool") (name (some 2) "S") (name (some 2) "S") ∧
    ∃ t i t' i', (capturedType.resolve aliases []).run 0 = .ok (t, i) ∧
      ((name (some 2) "S").resolve aliases []).run 0 = .ok (t', i') ∧ ¬t.AlphaEq t' := by
  have hreached : Aliases.Reached [("S", name (some 1) "Int")] 0 := by
    refine ⟨capturedSample, ⟨1, [.typedef 1 "S" (name (some 1) "Int"), .stmt (.assign 2 "x"
      (.ascribe { line := some 2 } (.val { line := some 2 } (.int 5)) capturedType))]⟩,
      [.typedef 1 "S" (name (some 1) "Int")], _, [], ?_, rfl, ?_⟩
    · cbv
    · cbv
  refine ⟨_, hreached, ⟨_, by cbv⟩, .other (by decide), name (some 2) "Bool", 0,
    name (some 1) "Int", 0, by cbv, by cbv, ?_⟩
  intro h
  exact absurd (Nameless.free.inj h) (by decide)

end Ty

end TraitCalculus
