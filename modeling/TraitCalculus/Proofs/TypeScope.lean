import Mathlib
import TraitCalculus.Proofs.SourceNames

/-! Where the names of a resolved program's types come from. Once abbreviations are expanded, the
names of all types are old, and a free name is that of a basic type or of an enclosing binder. -/
namespace TraitCalculus

section Run

variable {σ ε α β : Type}

theorem run_bind_eq_ok {m : StateT σ (Except ε) α} {f : α → StateT σ (Except ε) β} {s : σ}
    {r : β × σ} (h : (m >>= f).run s = .ok r) :
    ∃ a s', m.run s = .ok (a, s') ∧ (f a).run s' = .ok r := by
  rw [StateT.run_bind] at h
  cases hm : m.run s with
  | error e =>
    rw [hm] at h
    cases h
  | ok p =>
    rw [hm] at h
    exact ⟨p.1, p.2, rfl, h⟩

theorem run_bind_of_ok {m : StateT σ (Except ε) α} {f : α → StateT σ (Except ε) β} {s s' : σ}
    {a : α} (h : m.run s = .ok (a, s')) : (m >>= f).run s = (f a).run s' := by
  rw [StateT.run_bind, h]
  rfl

theorem run_pure_eq_ok {a b : α} {s s' : σ}
    (h : (pure a : StateT σ (Except ε) α).run s = .ok (b, s')) : b = a ∧ s' = s :=
  Prod.mk.inj (Except.ok.inj h).symm

theorem run_bind_pure_eq_ok {m : StateT σ (Except ε) α} {f : α → β} {b : β} {s s' : σ}
    (h : (m >>= fun a => pure (f a)).run s = .ok (b, s')) :
    ∃ a, m.run s = .ok (a, s') ∧ b = f a := by
  obtain ⟨a, s₁, ha, hret⟩ := run_bind_eq_ok h
  obtain ⟨rfl, rfl⟩ := run_pure_eq_ok hret
  exact ⟨a, ha, rfl⟩

theorem run_lift_eq_ok {e : Except ε α} {s : σ} {r : α × σ}
    (h : (liftM e : StateT σ (Except ε) α).run s = .ok r) : e = .ok r.1 ∧ r.2 = s := by
  cases e with
  | error e => cases h
  | ok a =>
    obtain rfl : (a, s) = r := Except.ok.inj h
    exact ⟨rfl, rfl⟩

theorem toOption_run_bind (m : StateT σ (Except ε) α) (f : α → StateT σ (Except ε) β) (s : σ) :
    ((m >>= f).run s).toOption = (m.run s).toOption.bind fun r => ((f r.1).run r.2).toOption := by
  rw [StateT.run_bind]
  cases m.run s with
  | error e => rfl
  | ok r => rfl

theorem exists_of_any_toOption {x : Except ε α} {p : α → Bool}
    (h : x.toOption.any p = true) : ∃ a, x = .ok a ∧ p a = true := by
  cases x with
  | error e => cases h
  | ok a => exact ⟨a, rfl, h⟩

end Run

/-- The names of a type are old at `k`, and its free names are among `F`. -/
structure Ty.Within (k : Nat) (F : List String) (t : Ty) : Prop where
  old : ∀ w ∈ t.names, OldName k w
  inScope : ∀ w ∈ t.free, w ∈ F

namespace Ty.Within

variable {k k' : Nat} {F F' : List String}

theorem mono {t : Ty} (h : t.Within k F) (hk : k ≤ k') (hF : ∀ w ∈ F, w ∈ F') :
    t.Within k' F' :=
  ⟨fun w hw => (h.old w hw).mono hk, fun w hw => hF w (h.inScope w hw)⟩

theorem later {t : Ty} (h : t.Within k F) (hk : k ≤ k') : t.Within k' F := h.mono hk fun _ => id

theorem all_iff {line : Option Nat} {x : String} {bounds : List String} {body : Ty} :
    (Ty.all line x bounds body).Within k F ↔ OldName k x ∧ body.Within k (x :: F) := by
  constructor
  · intro h
    refine ⟨h.old x List.mem_cons_self, fun w hw => h.old w (List.mem_cons_of_mem x hw), ?_⟩
    intro w hw
    by_cases hx : w = x
    · exact hx ▸ List.mem_cons_self
    · exact List.mem_cons_of_mem x (h.inScope w (by simp [free, hw, hx]))
  · rintro ⟨hx, hb⟩
    refine ⟨List.forall_mem_cons.mpr ⟨hx, hb.old⟩, fun w hw => ?_⟩
    have hw' : w ∈ body.free ∧ w ≠ x := by simpa [free] using hw
    exact (List.mem_cons.mp (hb.inScope w hw'.1)).resolve_left hw'.2

theorem arrow_iff {line : Option Nat} {dom cod : Ty} :
    (Ty.arrow line dom cod).Within k F ↔ dom.Within k F ∧ cod.Within k F := by
  constructor
  · intro h
    exact ⟨⟨fun w hw => h.old w (List.mem_append_left _ hw),
        fun w hw => h.inScope w (List.mem_append_left _ hw)⟩,
      ⟨fun w hw => h.old w (List.mem_append_right _ hw),
        fun w hw => h.inScope w (List.mem_append_right _ hw)⟩⟩
  · rintro ⟨hd, hc⟩
    exact ⟨List.forall_mem_append.mpr ⟨hd.old, hc.old⟩,
      List.forall_mem_append.mpr ⟨hd.inScope, hc.inScope⟩⟩

theorem list_iff {line : Option Nat} {elem : Ty} :
    (Ty.list line elem).Within k F ↔ elem.Within k F :=
  ⟨fun h => ⟨h.old, h.inScope⟩, fun h => ⟨h.old, h.inScope⟩⟩

theorem record_iff {line : Option Nat} {fields : List (String × Ty)} :
    (Ty.record line fields).Within k F ↔ ∀ f ∈ fields, f.2.Within k F := by
  constructor
  · intro h f hf
    exact ⟨fun w hw => h.old w (mem_namesFields.mpr ⟨f, hf, hw⟩),
      fun w hw => h.inScope w (mem_freeFields.mpr ⟨f, hf, hw⟩)⟩
  · intro h
    constructor
    · intro w hw
      obtain ⟨f, hf, hwf⟩ := mem_namesFields.mp hw
      exact (h f hf).old w hwf
    · intro w hw
      obtain ⟨f, hf, hwf⟩ := mem_freeFields.mp hw
      exact (h f hf).inScope w hwf

theorem emptyList (k : Nat) (F : List String) : Ty.emptyList.Within k F :=
  ⟨by simp [names], by simp [free]⟩

theorem basic {x : String} (hx : x ∈ basicNames) (hF : ∀ w ∈ basicNames, w ∈ F) (k : Nat)
    (line : Option Nat) : (Ty.name line x).Within k F := by
  have hsrc : SourceName x := by
    simp only [basicNames, List.mem_cons, List.not_mem_nil, or_false] at hx
    unfold SourceName
    rcases hx with rfl | rfl | rfl <;> decide
  exact ⟨List.forall_mem_singleton.mpr (hsrc.old k), List.forall_mem_singleton.mpr (hF x hx)⟩

/-- Instantiation keeps to the names in scope. -/
theorem subst {line : Option Nat} {x : String} {bounds : List String} {body arg : Ty}
    (hall : (Ty.all line x bounds body).Within k F) (harg : arg.Within k F) :
    k ≤ ((body.subst x arg).run k).2 ∧
      ((body.subst x arg).run k).1.Within ((body.subst x arg).run k).2 F := by
  obtain ⟨hx, hbody⟩ := all_iff.mp hall
  have hfree : ∀ w ∈ arg.free, OldName k w := fun w hw => harg.old w (free_subset_names arg w hw)
  refine ⟨substIn_drawn_le body _ _ k, ?_, ?_⟩
  · refine names_substIn body [] _ k hbody.old (by simp) ?_
    intro y new hy
    obtain ⟨rfl, rfl⟩ : x = y ∧ arg = new := by simpa using hy
    exact harg.old
  · intro w hw
    rw [mem_free_iff_nameless, nameless_subst body x arg k hx hfree hbody.old] at hw
    rcases Nameless.freeNames_subst _ x _ hw with ⟨hwb, hwx⟩ | hwa
    · have hmem : w ∈ (Ty.all line x bounds body).free := by
        simpa [free, hwx] using (mem_free_iff_nameless body w).mpr hwb
      exact hall.inScope w hmem
    · exact harg.inScope w ((mem_free_iff_nameless arg w).mpr hwa)

end Ty.Within

/-- What abbreviations stand for is closed, and its names are old. -/
def Aliases.Within (k : Nat) (aliases : Aliases) : Prop := ∀ p ∈ aliases, p.2.Within k Ty.basicNames

theorem Aliases.Within.later {k k' : Nat} {aliases : Aliases} (h : Aliases.Within k aliases)
    (hk : k ≤ k') : Aliases.Within k' aliases := fun p hp => (h p hp).later hk

namespace Ty

variable {aliases : Aliases} {bound F : List String}

theorem within_resolveName {k : Nat} {line : Option Nat} {x : String} {t : Ty}
    (hF : ∀ w ∈ basicNames ++ bound, w ∈ F) (ha : Aliases.Within k aliases) (hx : OldName k x)
    (h : resolveName aliases bound line x = .ok t) : t.Within k F := by
  unfold resolveName at h
  split_ifs at h with hb
  · obtain rfl : name line x = t := Except.ok.inj h
    exact ⟨List.forall_mem_singleton.mpr hx,
      List.forall_mem_singleton.mpr (hF x (List.mem_append.mpr hb))⟩
  · split at h
    · rename_i u hu
      obtain rfl : u = t := Except.ok.inj h
      obtain ⟨l₁, l₂, hl, -⟩ := List.lookup_eq_some_iff.mp hu
      exact (ha (x, u) (by simp [hl])).mono (le_refl k) fun w hw =>
        hF w (List.mem_append_left _ hw)
    · cases h

theorem covers_cons (x : String) (hF : ∀ w ∈ basicNames ++ bound, w ∈ F) :
    ∀ w ∈ basicNames ++ x :: bound, w ∈ x :: F := by
  intro w hw
  rcases List.mem_append.mp hw with hw | hw
  · exact List.mem_cons_of_mem x (hF w (List.mem_append_left _ hw))
  · rcases List.mem_cons.mp hw with rfl | hw
    · exact List.mem_cons_self
    · exact List.mem_cons_of_mem x (hF w (List.mem_append_right _ hw))

theorem within_resolve (t : Ty) {k k' : Nat} {t' : Ty} (hF : ∀ w ∈ basicNames ++ bound, w ∈ F)
    (ha : Aliases.Within k aliases) (ht : ∀ w ∈ t.names, OldName k w)
    (h : (t.resolve aliases bound).run k = .ok (t', k')) : k ≤ k' ∧ t'.Within k' F := by
  induction t using Ty.induction generalizing bound F k k' t' with
  | name line x =>
    obtain ⟨hname, rfl⟩ := run_lift_eq_ok h
    exact ⟨le_refl _, within_resolveName hF ha (ht x (by simp [names])) hname⟩
  | all line x bounds body ih =>
    obtain ⟨body', hbody, rfl⟩ := run_bind_pure_eq_ok h
    obtain ⟨hk, hw⟩ := ih (covers_cons x hF) ha
      (fun w hw => ht w (List.mem_cons_of_mem x hw)) hbody
    exact ⟨hk, Within.all_iff.mpr ⟨(ht x List.mem_cons_self).mono hk, hw⟩⟩
  | arrow line dom cod ihd ihc =>
    obtain ⟨dom', k₁, hdom, h⟩ := run_bind_eq_ok h
    obtain ⟨cod', hcod, rfl⟩ := run_bind_pure_eq_ok h
    obtain ⟨hk₁, hd⟩ := ihd hF ha (fun w hw => ht w (List.mem_append_left _ hw)) hdom
    obtain ⟨hk₂, hc⟩ := ihc hF (ha.later hk₁)
      (fun w hw => (ht w (List.mem_append_right _ hw)).mono hk₁) hcod
    exact ⟨hk₁.trans hk₂, Within.arrow_iff.mpr ⟨hd.later hk₂, hc⟩⟩
  | app line fn arg ihf iha =>
    obtain ⟨fn', k₁, hfn, h⟩ := run_bind_eq_ok h
    obtain ⟨arg', k₂, harg, h⟩ := run_bind_eq_ok h
    obtain ⟨hk₁, hf⟩ := ihf hF ha (fun w hw => ht w (List.mem_append_left _ hw)) hfn
    obtain ⟨hk₂, harg'⟩ := iha hF (ha.later hk₁)
      (fun w hw => (ht w (List.mem_append_right _ hw)).mono hk₁) harg
    -- a quantified type is instantiated at once, and nothing else can be applied
    split at h
    · rename_i l x bs body
      obtain ⟨rfl, rfl⟩ := Prod.mk.inj (Except.ok.inj h)
      obtain ⟨hk₃, hs⟩ := Within.subst (hf.later hk₂) harg'
      exact ⟨(hk₁.trans hk₂).trans hk₃, hs⟩
    · cases h
  | list line elem ih =>
    obtain ⟨elem', helem, rfl⟩ := run_bind_pure_eq_ok h
    obtain ⟨hk, hw⟩ := ih hF ha ht helem
    exact ⟨hk, Within.list_iff.mpr hw⟩
  | emptyList =>
    obtain ⟨rfl, rfl⟩ := run_pure_eq_ok h
    exact ⟨le_refl _, .emptyList _ F⟩
  | record line fields ih =>
    obtain ⟨fields', hfields, rfl⟩ := run_bind_pure_eq_ok h
    -- each field is resolved at the counter that the ones before it leave
    suffices hfs : k ≤ k' ∧ ∀ f ∈ fields', f.2.Within k' F from
      ⟨hfs.1, Within.record_iff.mpr hfs.2⟩
    have htf : ∀ f ∈ fields, ∀ w ∈ f.2.names, OldName k w :=
      fun f hf w hw => ht w (mem_namesFields.mpr ⟨f, hf, hw⟩)
    clear ht h
    induction fields generalizing k fields' with
    | nil =>
      obtain ⟨rfl, rfl⟩ := run_pure_eq_ok hfields
      exact ⟨le_refl _, by simp⟩
    | cons f fields ihs =>
      obtain ⟨t', k₁, ht', h⟩ := run_bind_eq_ok hfields
      obtain ⟨rest, hrest, rfl⟩ := run_bind_pure_eq_ok h
      obtain ⟨hk₁, hw⟩ := ih f List.mem_cons_self hF ha (htf f List.mem_cons_self) ht'
      obtain ⟨hk₂, hws⟩ := ihs (fun g hg => ih g (List.mem_cons_of_mem f hg)) (ha.later hk₁) rest
        hrest (fun g hg w hw => (htf g (List.mem_cons_of_mem f hg) w hw).mono hk₁)
      exact ⟨hk₁.trans hk₂, List.forall_mem_cons.mpr ⟨hw.later hk₂, hws⟩⟩

end Ty

def Param.Within (k : Nat) (F : List String) : Param → Prop
  | typed t => t.Within k F
  | _ => True

namespace Expr

mutual

/-- The free names of the types written in an expression are among `F`, or bound by a type lambda
around them. -/
def Within (k : Nat) (F : List String) : Expr → Prop
  | lam _ _ p body => p.Within k F ∧ body.Within k F
  | tlam _ x _ body => OldName k x ∧ body.Within k (x :: F)
  | cond _ c y z => c.Within k F ∧ y.Within k F ∧ z.Within k F
  | bin _ _ l r => l.Within k F ∧ r.Within k F
  | un _ _ e => e.Within k F
  | app _ f a => f.Within k F ∧ a.Within k F
  | tapp _ f t => f.Within k F ∧ t.Within k F
  | ascribe _ e t => e.Within k F ∧ t.Within k F
  | proj _ e _ => e.Within k F
  | var .. => True
  | val .. => True
  | list _ es => WithinItems k F es
  | record _ fs => WithinFields k F fs

def WithinItems (k : Nat) (F : List String) : List Expr → Prop
  | [] => True
  | e :: es => e.Within k F ∧ WithinItems k F es

def WithinFields (k : Nat) (F : List String) : List (String × Expr) → Prop
  | [] => True
  | (_, e) :: fs => e.Within k F ∧ WithinFields k F fs

end

theorem withinItems_iff {k : Nat} {F : List String} {es : List Expr} :
    WithinItems k F es ↔ ∀ e ∈ es, e.Within k F :=
  walk_iff trivial (fun _ _ => Iff.rfl) es

theorem withinFields_iff {k : Nat} {F : List String} {fs : List (String × Expr)} :
    WithinFields k F fs ↔ ∀ f ∈ fs, f.2.Within k F :=
  walk_iff trivial (fun _ _ => Iff.rfl) fs

theorem Within.later {e : Expr} {k k' : Nat} {F : List String} (h : e.Within k F) (hk : k ≤ k') :
    e.Within k' F := by
  induction e using Expr.induction generalizing F with
  | lam n x p body ih =>
    refine ⟨?_, ih h.2⟩
    cases p with
    | typed t => exact Ty.Within.later h.1 hk
    | dictionary => trivial
    | erased => trivial
  | tlam n x bounds body ih => exact ⟨h.1.mono hk, ih h.2⟩
  | cond n c y z ihc ihy ihz => exact ⟨ihc h.1, ihy h.2.1, ihz h.2.2⟩
  | bin n op l r ihl ihr | app n f a ihl ihr => exact ⟨ihl h.1, ihr h.2⟩
  | un n op e ih => exact ih h
  | tapp n f t ih | ascribe n e t ih => exact ⟨ih h.1, h.2.later hk⟩
  | proj n e label ih => exact ih h
  | var n x => trivial
  | val n v => trivial
  | list n es ih =>
    exact withinItems_iff.mpr fun e he => ih e he (withinItems_iff.mp h e he)
  | record n fs ih =>
    exact withinFields_iff.mpr fun f hf => ih f hf (withinFields_iff.mp h f hf)

/-- What resolution of an expression keeps: the counter grows, types are within the names in
scope, variables and lambdas have their names. -/
structure Resolved (k : Nat) (F : List String) (e e' : Expr) (k' : Nat) : Prop where
  le : k ≤ k'
  within : e'.Within k' F
  termNames_eq : e'.termNames = e.termNames
  lamNames_eq : e'.lamNames = e.lamNames

variable {aliases : Aliases} {bound F : List String}

theorem within_resolveParam {p p' : Param} {k k' : Nat}
    (hF : ∀ w ∈ Ty.basicNames ++ bound, w ∈ F) (ha : Aliases.Within k aliases)
    (hp : ∀ w ∈ p.typeNames, OldName k w) (h : (p.resolve aliases bound).run k = .ok (p', k')) :
    k ≤ k' ∧ p'.Within k' F := by
  cases p with
  | typed t =>
    obtain ⟨t', ht, rfl⟩ := run_bind_pure_eq_ok h
    exact Ty.within_resolve t hF ha hp ht
  | dictionary | erased =>
    obtain ⟨rfl, rfl⟩ := run_pure_eq_ok h
    exact ⟨le_refl _, trivial⟩

theorem resolved (e : Expr) {k k' : Nat} {e' : Expr} (hF : ∀ w ∈ Ty.basicNames ++ bound, w ∈ F)
    (hl : ∀ w ∈ e.lamNames, w ∈ F) (ha : Aliases.Within k aliases)
    (ht : ∀ w ∈ e.typeNames, OldName k w)
    (h : (e.resolve aliases bound).run k = .ok (e', k')) : Resolved k F e e' k' := by
  induction e using Expr.induction generalizing bound F k k' e' with
  | lam n x p body ih =>
    obtain ⟨p', k₁, hp, h⟩ := run_bind_eq_ok h
    obtain ⟨body', hbody, rfl⟩ := run_bind_pure_eq_ok h
    obtain ⟨hx, hl⟩ := List.forall_mem_cons.mp hl
    -- the parameter counts as a bound type name, so its name has to be among `F`
    have hF' : ∀ w ∈ Ty.basicNames ++ x :: bound, w ∈ F := by
      intro w hw
      rcases List.mem_append.mp hw with hw | hw
      · exact hF w (List.mem_append_left _ hw)
      · rcases List.mem_cons.mp hw with rfl | hw
        · exact hx
        · exact hF w (List.mem_append_right _ hw)
    obtain ⟨hk₁, hw₁⟩ := within_resolveParam hF' ha
      (fun w hw => ht w (List.mem_append_left _ hw)) hp
    have hres := ih hF' hl (ha.later hk₁)
      (fun w hw => (ht w (List.mem_append_right _ hw)).mono hk₁) hbody
    refine ⟨hk₁.trans hres.le, ⟨?_, hres.within⟩, congrArg (x :: ·) hres.termNames_eq,
      congrArg (x :: ·) hres.lamNames_eq⟩
    cases p' with
    | typed t => exact Ty.Within.later hw₁ hres.le
    | dictionary => trivial
    | erased => trivial
  | tlam n x bounds body ih =>
    obtain ⟨body', hbody, rfl⟩ := run_bind_pure_eq_ok h
    have hres := ih (Ty.covers_cons x hF) (fun w hw => List.mem_cons_of_mem x (hl w hw)) ha
      (fun w hw => ht w (List.mem_cons_of_mem x hw)) hbody
    exact ⟨hres.le, ⟨(ht x List.mem_cons_self).mono hres.le, hres.within⟩, hres.termNames_eq,
      hres.lamNames_eq⟩
  | cond n c y z ihc ihy ihz =>
    obtain ⟨c', k₁, hc, h⟩ := run_bind_eq_ok h
    obtain ⟨y', k₂, hy, h⟩ := run_bind_eq_ok h
    obtain ⟨z', hz, rfl⟩ := run_bind_pure_eq_ok h
    obtain ⟨htc, htyz⟩ := List.forall_mem_append.mp ht
    obtain ⟨hty, htz⟩ := List.forall_mem_append.mp htyz
    obtain ⟨hlc, hlyz⟩ := List.forall_mem_append.mp hl
    obtain ⟨hly, hlz⟩ := List.forall_mem_append.mp hlyz
    have hresc := ihc hF hlc ha htc hc
    have hresy := ihy hF hly (ha.later hresc.le) (fun w hw => (hty w hw).mono hresc.le) hy
    have hk₂ := hresc.le.trans hresy.le
    have hresz := ihz hF hlz (ha.later hk₂) (fun w hw => (htz w hw).mono hk₂) hz
    refine ⟨hk₂.trans hresz.le, ⟨hresc.within.later (hresy.le.trans hresz.le),
      hresy.within.later hresz.le, hresz.within⟩, ?_, ?_⟩
    · simp only [termNames, hresc.termNames_eq, hresy.termNames_eq, hresz.termNames_eq]
    · simp only [lamNames, hresc.lamNames_eq, hresy.lamNames_eq, hresz.lamNames_eq]
  | bin n op l r ihl ihr | app n f a ihl ihr =>
    obtain ⟨l', k₁, hl', h⟩ := run_bind_eq_ok h
    obtain ⟨r', hr', rfl⟩ := run_bind_pure_eq_ok h
    obtain ⟨htl, htr⟩ := List.forall_mem_append.mp ht
    obtain ⟨hll, hlr⟩ := List.forall_mem_append.mp hl
    have hresl := ihl hF hll ha htl hl'
    have hresr := ihr hF hlr (ha.later hresl.le) (fun w hw => (htr w hw).mono hresl.le) hr'
    refine ⟨hresl.le.trans hresr.le, ⟨hresl.within.later hresr.le, hresr.within⟩, ?_, ?_⟩
    · simp only [termNames, hresl.termNames_eq, hresr.termNames_eq]
    · simp only [lamNames, hresl.lamNames_eq, hresr.lamNames_eq]
  | un n op e ih | proj n e label ih =>
    obtain ⟨e', he, rfl⟩ := run_bind_pure_eq_ok h
    have hres := ih hF hl ha ht he
    exact ⟨hres.le, hres.within, hres.termNames_eq, hres.lamNames_eq⟩
  | tapp n f t ih | ascribe n e t ih =>
    obtain ⟨f', k₁, hf', h⟩ := run_bind_eq_ok h
    obtain ⟨t', ht', rfl⟩ := run_bind_pure_eq_ok h
    obtain ⟨htf, htt⟩ := List.forall_mem_append.mp ht
    have hres := ih hF hl ha htf hf'
    obtain ⟨hk₂, hwt⟩ := Ty.within_resolve t hF (ha.later hres.le)
      (fun w hw => (htt w hw).mono hres.le) ht'
    exact ⟨hres.le.trans hk₂, ⟨hres.within.later hk₂, hwt⟩, hres.termNames_eq, hres.lamNames_eq⟩
  | var n x | val n v =>
    obtain ⟨rfl, rfl⟩ := run_pure_eq_ok h
    exact ⟨le_refl _, trivial, rfl, rfl⟩
  | list n es ih | record n es ih =>
    obtain ⟨es', hes, rfl⟩ := run_bind_pure_eq_ok h
    clear h
    -- each part is resolved at the counter that the ones before it leave
    induction es generalizing k es' with
    | nil =>
      obtain ⟨rfl, rfl⟩ := run_pure_eq_ok hes
      exact ⟨le_refl _, trivial, rfl, rfl⟩
    | cons e es ihs =>
      obtain ⟨e', k₁, he, h⟩ := run_bind_eq_ok hes
      obtain ⟨rest, hrest, rfl⟩ := run_bind_pure_eq_ok h
      obtain ⟨ihe, ihes⟩ := List.forall_mem_cons.mp ih
      obtain ⟨hte, htes⟩ := List.forall_mem_append.mp ht
      obtain ⟨hle, hles⟩ := List.forall_mem_append.mp hl
      have hres := ihe hF hle ha hte he
      have hress := ihs ihes hles (ha.later hres.le) (fun w hw => (htes w hw).mono hres.le) _ hrest
      exact ⟨hres.le.trans hress.le, ⟨hres.within.later hress.le, hress.within⟩,
        congrArg₂ (· ++ ·) hres.termNames_eq hress.termNames_eq,
        congrArg₂ (· ++ ·) hres.lamNames_eq hress.lamNames_eq⟩

end Expr

namespace Stmt

/-- The types written in a statement are within the names of `F`. -/
def Within (k : Nat) (F : List String) : Stmt → Prop
  | assign _ _ e => e.Within k F
  | eval _ e => e.Within k F
  | inst _ _ type dict => type.Within k F ∧ dict.Within k F
  | field _ _ _ type => type.Within k F

/-- The name a statement binds, and those of variables and lambdas in it. -/
def termNames : Stmt → List String
  | assign _ x e => x :: e.termNames
  | eval _ e => e.termNames
  | inst _ _ _ dict => dict.termNames
  | field _ x _ _ => [x]

def lamNames : Stmt → List String
  | assign _ _ e => e.lamNames
  | eval _ e => e.lamNames
  | inst _ _ _ dict => dict.lamNames
  | field .. => []

theorem Within.later {s : Stmt} {k k' : Nat} {F : List String} (h : s.Within k F) (hk : k ≤ k') :
    s.Within k' F := by
  cases s with
  | assign line x e | eval line e => exact Expr.Within.later h hk
  | inst line trait type dict => exact ⟨h.1.later hk, h.2.later hk⟩
  | field line x trait type => exact Ty.Within.later h hk

theorem resolved {s s' : Stmt} {k k' : Nat} {aliases : Aliases} {F : List String}
    (hF : ∀ w ∈ Ty.basicNames, w ∈ F) (hl : ∀ w ∈ s.lamNames, w ∈ F)
    (ha : Aliases.Within k aliases) (hs : s.Source)
    (h : (s.resolve aliases).run k = .ok (s', k')) :
    k ≤ k' ∧ s'.Within k' F ∧ (∀ w ∈ s'.termNames, SourceName w) ∧ s'.lamNames = s.lamNames := by
  have hF' : ∀ w ∈ Ty.basicNames ++ [], w ∈ F := by simpa using hF
  cases s with
  | assign line x e =>
    obtain ⟨e', he, rfl⟩ := run_bind_pure_eq_ok h
    have hres := e.resolved hF' hl ha (fun w hw => (hs.2.types w hw).old k) he
    refine ⟨hres.le, hres.within, List.forall_mem_cons.mpr ⟨hs.1, ?_⟩, hres.lamNames_eq⟩
    rw [hres.termNames_eq]
    exact hs.2.terms
  | eval line e =>
    obtain ⟨e', he, rfl⟩ := run_bind_pure_eq_ok h
    have hres := e.resolved hF' hl ha (fun w hw => (Expr.Source.types hs w hw).old k) he
    refine ⟨hres.le, hres.within, ?_, hres.lamNames_eq⟩
    rw [termNames, hres.termNames_eq]
    exact Expr.Source.terms hs
  | inst line trait type dict =>
    obtain ⟨type', k₁, htype, h⟩ := run_bind_eq_ok h
    obtain ⟨dict', hdict, rfl⟩ := run_bind_pure_eq_ok h
    obtain ⟨hk₁, hw₁⟩ := type.within_resolve hF' ha (fun w hw => (hs.1 w hw).old k) htype
    have hres := dict.resolved hF' hl (ha.later hk₁) (fun w hw => (hs.2.types w hw).old k₁) hdict
    refine ⟨hk₁.trans hres.le, ⟨hw₁.later hres.le, hres.within⟩, ?_, hres.lamNames_eq⟩
    rw [termNames, hres.termNames_eq]
    exact hs.2.terms
  | field line x trait type =>
    obtain ⟨type', htype, rfl⟩ := run_bind_pure_eq_ok h
    obtain ⟨hk, hw⟩ := type.within_resolve hF' ha (fun w hw => (hs.2 w hw).old k) htype
    exact ⟨hk, hw, List.forall_mem_singleton.mpr hs.1, rfl⟩

end Stmt

theorem Aliases.Within.insert {k : Nat} {aliases : Aliases} (h : Aliases.Within k aliases)
    (x : String) {t : Ty} (ht : t.Within k Ty.basicNames) :
    Aliases.Within k (Assoc.insert x t aliases) := by
  intro p hp
  rcases Assoc.mem_insert hp with rfl | hp
  · exact ht
  · exact h p hp

def Decl.lamNames : Decl → List String
  | typedef .. => []
  | stmt s => s.lamNames

theorem Decl.resolvedAll {aliases : Aliases} {done ss : List Stmt} {ds : List Decl} {k k' : Nat}
    {F : List String} (hF : ∀ w ∈ Ty.basicNames, w ∈ F) (ha : Aliases.Within k aliases)
    (hd : ∀ d ∈ ds, d.Source ∧ ∀ w ∈ d.lamNames, w ∈ F)
    (hdone : ∀ s ∈ done, s.Within k F ∧ ∀ w ∈ s.termNames, SourceName w)
    (h : (resolveAll aliases done ds).run k = .ok (ss, k')) :
    (∀ s ∈ ss, s.Within k' F ∧ ∀ w ∈ s.termNames, SourceName w) ∧
      ss.flatMap Stmt.lamNames = done.reverse.flatMap Stmt.lamNames ++ ds.flatMap lamNames := by
  induction ds generalizing aliases done k with
  | nil =>
    obtain ⟨rfl, rfl⟩ := run_pure_eq_ok h
    exact ⟨by simpa using hdone, by simp⟩
  | cons d ds ih =>
    obtain ⟨⟨hsrc, hl⟩, hds⟩ := List.forall_mem_cons.mp hd
    cases d with
    | typedef line x t =>
      obtain ⟨t', k₁, ht, h⟩ := run_bind_eq_ok h
      obtain ⟨hk, hw⟩ := t.within_resolve (F := Ty.basicNames) (by simp) ha
        (fun w hw => (hsrc w hw).old k) ht
      obtain ⟨hss, hnames⟩ := ih ((ha.later hk).insert x hw) hds
        (fun s hs => ⟨(hdone s hs).1.later hk, (hdone s hs).2⟩) h
      exact ⟨hss, by simpa [lamNames] using hnames⟩
    | stmt s =>
      obtain ⟨s', k₁, hs, h⟩ := run_bind_eq_ok h
      obtain ⟨hk, hw, hn, hln⟩ := Stmt.resolved hF hl ha hsrc hs
      obtain ⟨hss, hnames⟩ := ih (ha.later hk) hds
        (List.forall_mem_cons.mpr ⟨⟨hw, hn⟩, fun s hs =>
          ⟨(hdone s hs).1.later hk, (hdone s hs).2⟩⟩) h
      exact ⟨hss, by simpa [lamNames, hln] using hnames⟩

/-- The names of all lambdas in a program. -/
def Program.lamNames (p : Program Stmt) : List String := p.stmts.flatMap Stmt.lamNames

/-- The statements of a text: a free name of a type is that of a basic type or of a lambda, and
the names of variables and lambdas are those of the text. -/
theorem Program.within_resolveText {code : String} {p : Program Stmt} {drawn : Nat}
    (h : resolveText code = .ok (p, drawn)) :
    ∀ s ∈ p.stmts, s.Within drawn (Ty.basicNames ++ p.lamNames) ∧
      ∀ w ∈ s.termNames, SourceName w := by
  unfold resolveText at h
  split at h
  · cases h
  · rename_i q hq
    have hrun : (q.resolve).run 0 = .ok (p, drawn) := by
      cases hr : (q.resolve).run 0 with
      | error e =>
        rw [hr] at h
        cases h
      | ok r =>
        rw [hr] at h
        exact congrArg Except.ok (Except.ok.inj h)
    obtain ⟨ss, hss, rfl⟩ := run_bind_pure_eq_ok hrun
    have hsrc := source_desugarText hq
    have hall := Decl.resolvedAll (F := Ty.basicNames ++ q.stmts.flatMap Decl.lamNames)
      (fun w hw => List.mem_append_left _ hw) (by simp [Aliases.Within])
      (fun d hd => ⟨hsrc d hd, fun w hw =>
        List.mem_append_right _ (List.mem_flatMap.mpr ⟨d, hd, hw⟩)⟩) (by simp) hss
    have hnames : ss.flatMap Stmt.lamNames = q.stmts.flatMap Decl.lamNames := by
      simpa using hall.2
    intro s hs
    rw [lamNames, hnames]
    exact hall.1 s hs

end TraitCalculus
