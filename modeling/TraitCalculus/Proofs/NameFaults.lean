import Mathlib
import TraitCalculus.Proofs.NamelessRenaming
import TraitCalculus.Proofs.TraitBounds

/-! What a renaming of type variables can change in the typing rules. Rules that compare types go
by the names of bound variables, so on renamed types they may fail; but then the fault is one of
names only, with types that are equal up to the names of bound variables. -/
namespace TraitCalculus

/-- The fault is in the names of bound variables only: with types compared up to these, the rule
would not fail. `I` holds the instances of the program. -/
def TypeFault.NamesOnly (I : Instances) : TypeFault → Prop
  | mismatch expected found => expected.AlphaSame found
  | wrongAscription stated found => stated.AlphaSame found
  | noInstantiation fn arg => ∃ line x bounds line' dom cod N,
      fn = .all line x bounds (.arrow line' dom cod) ∧
        Nameless.Fits N (dom.nameless [x]) (arg.nameless [])
  | boundsNotMet arg bounds _ => ∃ trait ∈ bounds, ∃ t, (trait, t) ∈ I ∧ t.AlphaSame arg
  | _ => False

def TypeError.NamesOnly (I : Instances) : TypeError → Prop
  | fault _ f => f.NamesOnly I
  | _ => False

/-- Success with a good result, or a fault of names only. -/
inductive Follows {α : Type} (I : Instances) (good : α → Prop) : Except TypeError α → Prop
  | ok {a : α} (h : good a) : Follows I good (.ok a)
  | names {e : TypeError} (h : e.NamesOnly I) : Follows I good (.error e)

namespace Follows

variable {α β : Type} {I : Instances} {good : α → Prop} {st : TypingState}

theorem imp {good' : α → Prop} {r : Except TypeError α} (h : Follows I good r)
    (hg : ∀ a, r = .ok a → good a → good' a) : Follows I good' r := by
  cases h with
  | ok h => exact .ok (hg _ rfl h)
  | names h => exact .names h

/-- Two typings in a row. -/
theorem bind {good : α × TypingState → Prop} {good' : β × TypingState → Prop} {m : Typing α}
    {g : α → Typing β} (h : Follows I good (m.run st))
    (hg : ∀ a st₁, good (a, st₁) → Follows I good' ((g a).run st₁)) :
    Follows I good' ((m >>= g).run st) := by
  rw [StateT.run_bind]
  cases hm : m.run st with
  | error e =>
    rw [hm] at h
    cases h with
    | names h => exact .names h
  | ok r =>
    rw [hm] at h
    cases h with
    | ok h => exact hg r.1 r.2 h

/-- A rule, and then the note of its type. -/
theorem annotate {good : Ty → Prop} {good' : (Expr × Ty) × TypingState → Prop}
    {rule : Except TypeError Ty} {e : Expr} (h : Follows I good rule)
    (hg : ∀ t, good t → good' (Expr.annotate e t, st)) :
    Follows I good' ((do return Expr.annotate e (← rule) : Typing (Expr × Ty)).run st) := by
  cases h with
  | ok h => exact .ok (hg _ h)
  | names h => exact .names h

end Follows

namespace Rule

variable {f : String → String} {I : Instances} {line line' : Option Nat} {s s' t t' u u' v : Ty}

/-- A basic type keeps its name. -/
theorem same_basic {w : String} (hw : f w = w) (ht : t.Renames f t')
    (h : t.same (.name none w) = true) : t'.same (.name none w) = true := by
  cases t with
  | name l x =>
    obtain rfl : x = w := by simpa [Ty.same] using h
    obtain ⟨l', rfl⟩ := ht.name_left
    simp [Ty.same, hw]
  | _ => simp [Ty.same] at h

theorem renames_basic {w : String} (hw : f w = w) : (Ty.name none w).Renames f (.name none w) := by
  apply Ty.Renames.of_fixed
  intro x hx
  rw [List.mem_singleton.mp hx, hw]

variable (hf : ∀ w ∈ Ty.basicNames, f w = w)

include hf in
theorem follows_cond (hs : s.Renames f s') (ht : t.Renames f t') (hu : u.Renames f u')
    (h : cond line s t u = .ok v) : Follows I (v.Renames f ·) (cond line' s' t' u') := by
  obtain ⟨hbool, hsame, rfl⟩ := cond_ok h
  have hbool' : s'.same .bool = true := same_basic (hf "Bool" (by decide)) hs hbool
  unfold cond
  rw [if_neg (by simpa using hbool')]
  split_ifs with hne
  · exact .names (ht.alphaSame hu hsame)
  · exact .ok ht

theorem follows_equality (hw : f "Bool" = "Bool") (hs : s.Renames f s') (ht : t.Renames f t')
    (h : equality line s t = .ok v) : Follows I (v.Renames f ·) (equality line' s' t') := by
  obtain ⟨hsame, rfl⟩ := equality_ok h
  unfold equality
  split_ifs
  · exact .ok (renames_basic hw)
  · exact .names (hs.alphaSame ht hsame)

theorem follows_logic (hw : f "Bool" = "Bool") (hs : s.Renames f s') (ht : t.Renames f t')
    (h : logic line s t = .ok v) : Follows I (v.Renames f ·) (logic line' s' t') := by
  obtain ⟨hl, hr, rfl⟩ := logic_ok h
  have hl' : s'.same .bool = true := same_basic hw hs hl
  have hr' : t'.same .bool = true := same_basic hw ht hr
  rw [logic, hl', hr']
  exact .ok (renames_basic hw)

theorem follows_ints {result : Ty} (hw : f "Int" = "Int") (hresult : result.Renames f result)
    (hs : s.Renames f s') (ht : t.Renames f t') (h : ints line result s t = .ok v) :
    Follows I (v.Renames f ·) (ints line' result s' t') := by
  obtain ⟨hl, hr, rfl⟩ := ints_ok h
  have hl' : s'.same .int = true := same_basic hw hs hl
  have hr' : t'.same .int = true := same_basic hw ht hr
  rw [ints, hl', hr']
  exact .ok hresult

theorem isList_of_renames (hs : s.Renames f s') (h : isList s = true) : isList s' = true := by
  cases s with
  | list l elem =>
    obtain ⟨_, _, rfl, -⟩ := hs.list_left
    rfl
  | emptyList =>
    rw [Ty.nameless_eq_emptyList hs]
    rfl
  | _ => cases h

include hf in
theorem follows_sum (hs : s.Renames f s') (ht : t.Renames f t') (h : sum line s t = .ok v) :
    Follows I (v.Renames f ·) (sum line' s' t') := by
  obtain ⟨hsame, hkind, rfl⟩ := sum_ok h
  have hkind' : (s'.same .int || s'.same .string || isList s') = true := by
    rcases hkind with hint | hstring | hlist
    · have hint' : s'.same .int = true := same_basic (hf "Int" (by decide)) hs hint
      rw [hint', Bool.true_or, Bool.true_or]
    · have hstring' : s'.same .string = true := same_basic (hf "String" (by decide)) hs hstring
      rw [hstring', Bool.or_true, Bool.true_or]
    · rw [isList_of_renames hs hlist, Bool.or_true]
  unfold sum
  split_ifs
  · exact .names (hs.alphaSame ht hsame)
  · exact .ok hs

include hf in
theorem follows_bin {op : BinOp} (hs : s.Renames f s') (ht : t.Renames f t')
    (h : bin line op s t = .ok v) : Follows I (v.Renames f ·) (bin line' op s' t') := by
  have hbool := hf "Bool" (by decide)
  have hint := hf "Int" (by decide)
  cases op with
  | or | and => exact follows_logic hbool hs ht h
  | eq | neq => exact follows_equality hbool hs ht h
  | gt | lt | geq | leq => exact follows_ints hint (renames_basic hbool) hs ht h
  | add => exact follows_sum hf hs ht h
  | sub | mul | div | mod => exact follows_ints hint (renames_basic hint) hs ht h

include hf in
theorem follows_un {op : UnOp} (hs : s.Renames f s') (h : un line op s = .ok v) :
    Follows I (v.Renames f ·) (un line' op s') := by
  cases un_ok h with
  | not hb =>
    have hb' : s'.same .bool = true := same_basic (hf "Bool" (by decide)) hs hb
    rw [un, hb']
    exact .ok (renames_basic (hf "Bool" (by decide)))
  | neg hi =>
    have hi' : s'.same .int = true := same_basic (hf "Int" (by decide)) hs hi
    rw [un, hi']
    exact .ok (renames_basic (hf "Int" (by decide)))

theorem follows_proj {label : String} (hs : s.Renames f s') (h : proj line s label = .ok v) :
    Follows I (v.Renames f ·) (proj line' s' label) := by
  obtain ⟨l, fields, rfl, hfield⟩ := proj_ok h
  obtain ⟨l', fields', rfl, hfields⟩ := hs.record_left
  obtain ⟨v', hfield', hv⟩ := Ty.lookup_of_renameFields hfields hfield
  simp only [proj, hfield']
  exact .ok hv

theorem follows_ascribe (hs : s.Renames f s') (ht : t.Renames f t')
    (h : ascribe line s t = .ok v) : Follows I (v.Renames f ·) (ascribe line' s' t') := by
  obtain ⟨hsame, rfl⟩ := ascribe_ok h
  unfold ascribe
  split_ifs
  · exact .ok ht
  · exact .names (ht.alphaSame hs hsame).symm

theorem follows_app (hs : s.Renames f s') (ht : t.Renames f t') (h : app line s t = .ok v) :
    Follows I (v.Renames f ·) (app line' s' t') := by
  obtain ⟨l, dom, rfl, hsame⟩ := app_ok h
  obtain ⟨l', dom', cod', rfl, hd, hc⟩ := hs.arrow_left
  simp only [app]
  split_ifs
  · exact .ok hc
  · exact .names (hd.alphaSame ht hsame)

section Bounds

theorem exists_mem_of_forall₂ {α β : Type} {R : α → β → Prop} {as : List α} {bs : List β}
    (h : List.Forall₂ R as bs) {a : α} (ha : a ∈ as) : ∃ b ∈ bs, R a b := by
  induction h with
  | nil => cases ha
  | @cons c d _ _ hcd _ ih =>
    rcases List.mem_cons.mp ha with rfl | ha
    · exact ⟨d, List.mem_cons_self, hcd⟩
    · obtain ⟨b, hb, hab⟩ := ih ha
      exact ⟨b, List.mem_cons_of_mem d hb, hab⟩

/-- The tables know the same traits, and the types that implement one are related. -/
structure TablesRelated (f : String → String) (is is' : List (String × List Ty)) : Prop where
  known : ∀ trait, (is.lookup trait).isSome = (is'.lookup trait).isSome
  types : ∀ trait, List.Forall₂ (Ty.Renames f) (implementors is trait) (implementors is' trait)

variable {is is' : List (String × List Ty)}

theorem known_update (h : ∀ trait, (is.lookup trait).isSome = (is'.lookup trait).isSome)
    (g g' : List Ty → List Ty) (bs : List String) (trait : String) :
    ((Typing.update g bs is).lookup trait).isSome =
      ((Typing.update g' bs is').lookup trait).isSome := by
  rw [Typing.lookup_update, Typing.lookup_update]
  split_ifs
  · rfl
  · exact h trait

theorem mem_implementors_update {bs : List String} {trait : String}
    (h : u ∈ implementors (Typing.update (t :: ·) bs is) trait) :
    (u = t ∧ trait ∈ bs) ∨ u ∈ implementors is trait := by
  rw [implementors, Typing.lookup_update] at h
  split_ifs at h with hmem
  · exact (Instances.mem_iterate_cons _ h).imp_left fun he => ⟨he, hmem⟩
  · exact Or.inr h

/-- A type and its renamed form become instances of the same traits. -/
theorem TablesRelated.assume (h : TablesRelated f is is') (ht : t.Renames f t')
    (bs : List String) :
    TablesRelated f (Typing.update (t :: ·) bs is) (Typing.update (t' :: ·) bs is') := by
  refine ⟨known_update h.known _ _ bs, ?_⟩
  intro trait
  rw [implementors, implementors, Typing.lookup_update, Typing.lookup_update]
  split_ifs
  · rw [Option.getD_some, Option.getD_some]
    generalize bs.count trait = n
    induction n with
    | zero => exact h.types trait
    | succ n ih =>
      rw [Function.iterate_succ_apply', Function.iterate_succ_apply']
      exact .cons ht ih
  · exact h.types trait

theorem implementing_of_related (h : TablesRelated f is is') {bs : List String} {ts : List Ty}
    (hts : implementing is bs = .ok ts) :
    ∃ ts', implementing is' bs = .ok ts' ∧ List.Forall₂ (Ty.Renames f) ts ts' := by
  induction bs generalizing ts with
  | nil =>
    obtain rfl : [] = ts := Except.ok.inj hts
    exact ⟨[], rfl, .nil⟩
  | cons trait bs ih =>
    rw [implementing] at hts
    split at hts
    · cases hts
    · next us hus =>
      split at hts
      · cases hts
      · next vs hvs =>
        obtain rfl : us ++ vs = ts := Except.ok.inj hts
        obtain ⟨vs', hvs', hall⟩ := ih hvs
        have hknown := h.known trait
        rw [hus, Option.isSome_some] at hknown
        obtain ⟨us', hus'⟩ := Option.isSome_iff_exists.mp hknown.symm
        have htypes := h.types trait
        rw [implementors, implementors, hus, hus', Option.getD_some, Option.getD_some] at htypes
        refine ⟨us' ++ vs', ?_, List.rel_append htypes hall⟩
        rw [implementing, hus', hvs']

/-- Bounds that are met are met after a renaming, or not for names only. An instance that is not
announced by the program is a type variable, which has no bound variables. -/
theorem follows_bounds (h : TablesRelated f is is')
    (horigin : ∀ trait, ∀ t ∈ implementors is' trait, (trait, t) ∈ I ∨ ∃ l x, t = .name l x)
    {bs : List String} {fn fn' : Expr} (ht : t.Renames f t')
    (hb : bounds is line bs fn t = .ok ()) :
    Follows I (fun _ => True) (bounds is' line' bs fn' t') := by
  unfold bounds at hb ⊢
  split_ifs at hb ⊢ with hbs
  · exact .ok trivial
  · split at hb
    · cases hb
    · next ts hts =>
      split_ifs at hb with hany
      obtain ⟨ts', hts', hall⟩ := implementing_of_related h hts
      rw [hts']
      simp only
      split_ifs with hany'
      · exact .ok trivial
      · obtain ⟨s, hs, hsame⟩ := List.any_eq_true.mp hany
        obtain ⟨s', hs', hrel⟩ := exists_mem_of_forall₂ hall hs
        have halpha : s'.AlphaSame t' := hrel.alphaSame ht hsame
        obtain ⟨trait, htrait, hmem⟩ := implementors_of_implementing hts' s' hs'
        rcases horigin trait s' hmem with hI | ⟨l, x, rfl⟩
        · exact .names ⟨trait, htrait, s', hI, halpha⟩
        · exact absurd (List.any_eq_true.mpr ⟨_, hs', halpha.same_name⟩) hany'

/-- A type application. All names in use are old, so that no instance captures a name. -/
theorem follows_tapp {st st₁ st' : TypingState} {F F' : List String} {fn fn' : Expr}
    (htables : TablesRelated f st.instances st'.instances)
    (horigin : ∀ trait, ∀ t ∈ implementors st'.instances trait,
      (trait, t) ∈ I ∨ ∃ l x, t = .name l x)
    (hs : s.Renames f s') (ht : t.Renames f t') (hsw : s.Within st.drawn F)
    (htw : t.Within st.drawn F) (hsw' : s'.Within st'.drawn F') (htw' : t'.Within st'.drawn F')
    (h : (tapp line fn s t).run st = .ok (v, st₁)) :
    st₁.instances = st.instances ∧
      Follows I (fun r => v.Renames f r.1 ∧ r.2.instances = st'.instances)
        ((tapp line' fn' s' t').run st') := by
  obtain ⟨l, x, bs, body, rfl, hbounds, rfl, rfl⟩ := run_tapp_eq_ok.mp h
  obtain ⟨l', x', body', rfl, hbody⟩ := hs.all_left
  refine ⟨rfl, ?_⟩
  have hfree : ∀ w ∈ t.free, OldName st.drawn w :=
    fun w hw => htw.old w (Ty.free_subset_names t w hw)
  have hfree' : ∀ w ∈ t'.free, OldName st'.drawn w :=
    fun w hw => htw'.old w (Ty.free_subset_names t' w hw)
  obtain ⟨hx, hbw⟩ := Ty.Within.all_iff.mp hsw
  obtain ⟨hx', hbw'⟩ := Ty.Within.all_iff.mp hsw'
  have hinst := Ty.nameless_subst body x t st.drawn hx hfree hbw.old
  have hinst' := Ty.nameless_subst body' x' t' st'.drawn hx' hfree' hbw'.old
  have hv : ((body.subst x t).run st.drawn).1.Renames f ((body'.subst x' t').run st'.drawn).1 := by
    rw [Ty.Renames, hinst, hinst', Ty.Renames.subst hbody ht]
  have hb : Follows I (fun _ => True) (bounds st'.instances line' bs fn' t') :=
    follows_bounds htables horigin ht hbounds
  cases hr : bounds st'.instances line' bs fn' t' with
  | error e =>
    have hrun : (tapp line' fn' (.all l' x' bs body') t').run st' = .error e := by
      simp only [tapp, StateT.run_bind, StateT.run_get, pure_bind, hr]
      rfl
    rw [hr] at hb
    rw [hrun]
    cases hb with
    | names hb => exact .names hb
  | ok u =>
    rw [run_tapp_eq_ok.mpr ⟨l', x', bs, body', rfl, hr, rfl, rfl⟩]
    exact .ok ⟨hv, rfl⟩

end Bounds

end Rule

end TraitCalculus
