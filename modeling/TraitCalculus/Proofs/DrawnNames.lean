import Mathlib
import TraitCalculus.Proofs.TypeEquality
import TraitCalculus.Proofs.TypeSubstitution

/-! Types up to the names that were drawn for them. Two types are alike at `k` if they are
alpha-equivalent and differ in names drawn after `k` only; a type without such names is like no
other. -/
namespace TraitCalculus

open Classical in
/-- A name, or one and the same new name for all that were drawn after `k`. -/
noncomputable def maskName (k : Nat) (w : String) : String :=
  if OldName k w then w else freshName "" (k + 1)

section MaskName

variable {k : Nat} {v w : String}

theorem maskName_of_old (h : OldName k w) : maskName k w = w := if_pos h

theorem maskName_of_drawn (h : ¬OldName k w) : maskName k w = freshName "" (k + 1) := if_neg h

theorem old_maskName_iff : OldName k (maskName k w) ↔ OldName k w := by
  by_cases h : OldName k w
  · rw [maskName_of_old h]
  · rw [maskName_of_drawn h]
    exact iff_of_false (not_oldName_freshName "" (Nat.lt_succ_self k)) h

theorem old_iff_of_maskName_eq (h : maskName k v = maskName k w) :
    OldName k v ↔ OldName k w := by
  rw [← old_maskName_iff, h, old_maskName_iff]

/-- An old name is told from all others. -/
theorem eq_of_maskName_eq (h : maskName k v = maskName k w) (hv : OldName k v) : w = v := by
  have hw : OldName k w := (old_iff_of_maskName_eq h).mp hv
  rw [maskName_of_old hv, maskName_of_old hw] at h
  exact h.symm

end MaskName

namespace Ty

/-- No name of the type was drawn after `k`. -/
def Settled (k : Nat) (t : Ty) : Prop := ∀ w ∈ t.names, OldName k w

mutual

/-- The type with all names drawn after `k` masked. -/
@[simp] noncomputable def mask (k : Nat) : Ty → Ty
  | name line x => name line (maskName k x)
  | all line x bounds body => all line (maskName k x) bounds (body.mask k)
  | arrow line dom cod => arrow line (dom.mask k) (cod.mask k)
  | app line fn arg => app line (fn.mask k) (arg.mask k)
  | list line elem => list line (elem.mask k)
  | emptyList => emptyList
  | record line fields => record line (maskFields k fields)

@[simp] noncomputable def maskFields (k : Nat) : List (String × Ty) → List (String × Ty)
  | [] => []
  | (label, t) :: fields => (label, t.mask k) :: maskFields k fields

end

mutual

/-- The names of all quantifiers of a type. -/
@[simp] def binders : Ty → List String
  | name _ _ => []
  | all _ x _ body => x :: body.binders
  | arrow _ dom cod => dom.binders ++ cod.binders
  | app _ fn arg => fn.binders ++ arg.binders
  | list _ elem => elem.binders
  | emptyList => []
  | record _ fields => bindersFields fields

@[simp] def bindersFields : List (String × Ty) → List String
  | [] => []
  | (_, t) :: fields => t.binders ++ bindersFields fields

end

mutual

/-- No quantifier over a name drawn after `k` stands around another one over this name. -/
@[simp] def Unnested (k : Nat) : Ty → Prop
  | name _ _ => True
  | all _ x _ body => (OldName k x ∨ x ∉ body.binders) ∧ body.Unnested k
  | arrow _ dom cod => dom.Unnested k ∧ cod.Unnested k
  | app _ fn arg => fn.Unnested k ∧ arg.Unnested k
  | list _ elem => elem.Unnested k
  | emptyList => True
  | record _ fields => UnnestedFields k fields

@[simp] def UnnestedFields (k : Nat) : List (String × Ty) → Prop
  | [] => True
  | (_, t) :: fields => t.Unnested k ∧ UnnestedFields k fields

end

/-- The types differ in names drawn after `k` only, and in those only where they are bound. -/
structure Alike (k : Nat) (s t : Ty) : Prop where
  mask : s.mask k = t.mask k
  alpha : s.AlphaEq t

theorem maskFields_eq (k : Nat) (fields : List (String × Ty)) :
    maskFields k fields = fields.map fun f => (f.1, f.2.mask k) :=
  walk_eq_map rfl (fun _ _ => rfl) fields

theorem mem_bindersFields {x : String} {fields : List (String × Ty)} :
    x ∈ bindersFields fields ↔ ∃ f ∈ fields, x ∈ f.2.binders :=
  mem_walk rfl (fun _ _ => rfl) fields

theorem unnestedFields_iff {k : Nat} {fields : List (String × Ty)} :
    UnnestedFields k fields ↔ ∀ f ∈ fields, f.2.Unnested k :=
  walk_iff trivial (fun _ _ => Iff.rfl) fields

theorem binders_subset_names (t : Ty) : ∀ x ∈ t.binders, x ∈ t.names := by
  induction t using Ty.induction with
  | name line x => simp [binders]
  | all line x bounds body ih => exact List.cons_subset_cons x ih
  | arrow line dom cod ihd ihc | app line fn arg ihd ihc =>
    exact fun x hx => List.mem_append.mpr ((List.mem_append.mp hx).imp (ihd x) (ihc x))
  | list line elem ih => exact ih
  | emptyList => simp [binders]
  | record line fields ih =>
    intro x hx
    obtain ⟨f, hf, hxf⟩ := mem_bindersFields.mp hx
    exact mem_namesFields.mpr ⟨f, hf, ih f hf x hxf⟩

namespace Settled

variable {k : Nat}

theorem arrow_iff {line : Option Nat} {dom cod : Ty} :
    (arrow line dom cod).Settled k ↔ dom.Settled k ∧ cod.Settled k :=
  List.forall_mem_append

theorem app_iff {line : Option Nat} {fn arg : Ty} :
    (app line fn arg).Settled k ↔ fn.Settled k ∧ arg.Settled k :=
  List.forall_mem_append

theorem all_iff {line : Option Nat} {x : String} {bounds : List String} {body : Ty} :
    (all line x bounds body).Settled k ↔ OldName k x ∧ body.Settled k :=
  List.forall_mem_cons

theorem record_iff {line : Option Nat} {fields : List (String × Ty)} :
    (record line fields).Settled k ↔ ∀ f ∈ fields, f.2.Settled k := by
  constructor
  · intro h f hf w hw
    exact h w (mem_namesFields.mpr ⟨f, hf, hw⟩)
  · intro h w hw
    obtain ⟨f, hf, hwf⟩ := mem_namesFields.mp hw
    exact h f hf w hwf

theorem mono {k' : Nat} {t : Ty} (h : t.Settled k) (hk : k ≤ k') : t.Settled k' :=
  fun w hw => (h w hw).mono hk

theorem mask_eq {t : Ty} (h : t.Settled k) : t.mask k = t := by
  induction t using Ty.induction with
  | name line x => rw [mask, maskName_of_old (h x (by simp [names]))]
  | all line x bounds body ih =>
    rw [mask, maskName_of_old (all_iff.mp h).1, ih (all_iff.mp h).2]
  | arrow line dom cod ihd ihc => rw [mask, ihd (arrow_iff.mp h).1, ihc (arrow_iff.mp h).2]
  | app line fn arg ihf iha => rw [mask, ihf (app_iff.mp h).1, iha (app_iff.mp h).2]
  | list line elem ih => rw [mask, ih h]
  | emptyList => rfl
  | record line fields ih =>
    rw [mask, maskFields_eq]
    congr 1
    calc
      fields.map (fun f => (f.1, f.2.mask k)) = fields.map id := by
        apply List.map_congr_left
        intro f hf
        rw [ih f hf (record_iff.mp h f hf)]
        rfl
      _ = fields := List.map_id fields

theorem unnested {t : Ty} (h : t.Settled k) : t.Unnested k := by
  induction t using Ty.induction with
  | name line x => trivial
  | all line x bounds body ih => exact ⟨Or.inl (all_iff.mp h).1, ih (all_iff.mp h).2⟩
  | arrow line dom cod ihd ihc => exact ⟨ihd (arrow_iff.mp h).1, ihc (arrow_iff.mp h).2⟩
  | app line fn arg ihf iha => exact ⟨ihf (app_iff.mp h).1, iha (app_iff.mp h).2⟩
  | list line elem ih => exact ih h
  | emptyList => trivial
  | record line fields ih =>
    exact unnestedFields_iff.mpr fun f hf => ih f hf (record_iff.mp h f hf)

end Settled

theorem names_mask (k : Nat) (t : Ty) : (t.mask k).names = t.names.map (maskName k) := by
  induction t using Ty.induction with
  | name line x => rfl
  | all line x bounds body ih | list line elem ih => simp [mask, names, ih]
  | arrow line dom cod ihd ihc | app line fn arg ihd ihc => simp [mask, names, ihd, ihc]
  | emptyList => rfl
  | record line fields ih =>
    rw [mask, names, names]
    induction fields with
    | nil => rfl
    | cons f fields ihs =>
      obtain ⟨hf, hfs⟩ := List.forall_mem_cons.mp ih
      rw [maskFields, namesFields, namesFields, List.map_append, hf, ihs hfs]

/-- Masking leaves a mark in every type that is not settled. -/
theorem settled_of_mask {k : Nat} {t : Ty} (h : (t.mask k).Settled k) : t.Settled k := by
  intro w hw
  apply old_maskName_iff.mp
  apply h
  rw [names_mask]
  exact List.mem_map_of_mem hw

/-- Types that count as the same have the same names. -/
theorem names_sorted (t : Ty) (w : String) : w ∈ t.sorted.names ↔ w ∈ t.names := by
  induction t using Ty.induction with
  | name line x | emptyList => exact Iff.rfl
  | all line x bounds body ih => simp [sorted, names, ih]
  | arrow line dom cod ihd ihc | app line fn arg ihd ihc => simp [sorted, names, ihd, ihc]
  | list line elem ih => exact ih
  | record line fields ih =>
    rw [sorted, names, names, mem_namesFields, mem_namesFields, sortedFields_eq]
    have hmem (g : String × Ty) : g ∈ sortByLabel (fields.map fun f => (f.1, f.2.sorted)) ↔
        g ∈ fields.map fun f => (f.1, f.2.sorted) :=
      (List.perm_insertionSort byLabel _).mem_iff
    constructor
    · rintro ⟨g, hg, hw⟩
      obtain ⟨f, hf, rfl⟩ := List.mem_map.mp ((hmem g).mp hg)
      exact ⟨f, hf, (ih f hf).mp hw⟩
    · rintro ⟨f, hf, hw⟩
      exact ⟨_, (hmem _).mpr (List.mem_map_of_mem hf), (ih f hf).mpr hw⟩

theorem mem_names_of_same {s t : Ty} (h : s.same t = true) (w : String) :
    w ∈ s.names ↔ w ∈ t.names := by
  rw [← names_sorted, (same_iff_sorted s t).mp h, names_sorted]

namespace Alike

variable {k : Nat} {s t u : Ty}

theorem refl (k : Nat) (t : Ty) : t.Alike k t := ⟨rfl, rfl⟩

theorem symm (h : s.Alike k t) : t.Alike k s := ⟨h.mask.symm, h.alpha.symm⟩

/-- A settled type is like no other. -/
theorem eq_of_settled (h : s.Alike k t) (hs : s.Settled k) : t = s := by
  have hm : t.mask k = s := h.mask.symm.trans hs.mask_eq
  have ht : t.Settled k := settled_of_mask (hm ▸ hs)
  rw [← hm, ht.mask_eq]

theorem arrow {line : Option Nat} {dom dom' cod cod' : Ty} (hd : dom.Alike k dom')
    (hc : cod.Alike k cod') : (Ty.arrow line dom cod).Alike k (Ty.arrow line dom' cod') where
  mask := by rw [Ty.mask, Ty.mask, hd.mask, hc.mask]
  alpha := by
    have hda := hd.alpha
    have hca := hc.alpha
    unfold AlphaEq at hda hca ⊢
    rw [nameless, nameless, hda, hca]

theorem list {line : Option Nat} (h : s.Alike k t) :
    (Ty.list line s).Alike k (Ty.list line t) where
  mask := by rw [Ty.mask, Ty.mask, h.mask]
  alpha := by
    have ha := h.alpha
    unfold AlphaEq at ha ⊢
    rw [nameless, nameless, ha]

theorem all (line : Option Nat) (x : String) (bounds : List String) (h : s.Alike k t) :
    (Ty.all line x bounds s).Alike k (Ty.all line x bounds t) where
  mask := by rw [Ty.mask, Ty.mask, h.mask]
  alpha := by
    have ha := h.alpha
    unfold AlphaEq at ha ⊢
    rw [nameless, nameless, nameless_singleton, nameless_singleton, ha]

/-- Fields with the same labels in the same order, and alike types. -/
def Fields (k : Nat) (fs gs : List (String × Ty)) : Prop :=
  List.Forall₂ (fun f g => f.1 = g.1 ∧ f.2.Alike k g.2) fs gs

theorem record (line : Option Nat) {fs gs : List (String × Ty)} (h : Fields k fs gs) :
    (Ty.record line fs).Alike k (Ty.record line gs) := by
  induction h with
  | nil => exact refl k _
  | cons hf hfs ih =>
    obtain ⟨hlabel, hf⟩ := hf
    have hm := ih.mask
    have ha := ih.alpha
    have hfa := hf.alpha
    unfold AlphaEq at ha hfa
    rw [Ty.mask, Ty.mask, Ty.record.injEq] at hm
    rw [nameless, nameless, Nameless.record.injEq] at ha
    constructor
    · rw [Ty.mask, Ty.mask, maskFields, maskFields, hlabel, hf.mask, hm.2]
    · unfold AlphaEq
      rw [nameless, nameless, namelessFields, namelessFields, hlabel, hfa, ha]

theorem of_arrow {line : Option Nat} {dom cod : Ty} (h : (Ty.arrow line dom cod).Alike k t) :
    ∃ dom' cod', t = Ty.arrow line dom' cod' ∧ dom.Alike k dom' ∧ cod.Alike k cod' := by
  have hm := h.mask
  have ha := h.alpha
  unfold AlphaEq at ha
  cases t with
  | arrow line' dom' cod' =>
    rw [Ty.mask, Ty.mask, Ty.arrow.injEq] at hm
    rw [nameless, nameless, Nameless.arrow.injEq] at ha
    exact ⟨dom', cod', by rw [hm.1], ⟨hm.2.1, ha.1⟩, ⟨hm.2.2, ha.2⟩⟩
  | _ => simp [Ty.mask] at hm

theorem of_all {line : Option Nat} {x : String} {bounds : List String} {body : Ty}
    (h : (Ty.all line x bounds body).Alike k t) :
    ∃ x' body', t = Ty.all line x' bounds body' ∧ maskName k x = maskName k x' ∧
      body.mask k = body'.mask k ∧ body.nameless [x] = body'.nameless [x'] := by
  have hm := h.mask
  have ha := h.alpha
  unfold AlphaEq at ha
  cases t with
  | all line' x' bounds' body' =>
    rw [Ty.mask, Ty.mask, Ty.all.injEq] at hm
    rw [nameless, nameless, Nameless.all.injEq] at ha
    exact ⟨x', body', by rw [hm.1, hm.2.2.1], hm.2.1, hm.2.2.2, ha.2⟩
  | _ => simp [Ty.mask] at hm

theorem of_record {line : Option Nat} {fs : List (String × Ty)}
    (h : (Ty.record line fs).Alike k t) : ∃ gs, t = Ty.record line gs ∧ Fields k fs gs := by
  have hm := h.mask
  have ha := h.alpha
  unfold AlphaEq at ha
  cases t with
  | record line' gs =>
    rw [Ty.mask, Ty.mask, Ty.record.injEq, maskFields_eq, maskFields_eq] at hm
    rw [nameless, nameless, Nameless.record.injEq, namelessFields_eq, namelessFields_eq] at ha
    refine ⟨gs, by rw [hm.1], ?_⟩
    have hmask := hm.2
    clear h hm
    induction fs generalizing gs with
    | nil =>
      cases gs with
      | nil => exact .nil
      | cons g gs => cases hmask
    | cons f fs ih =>
      cases gs with
      | nil => cases hmask
      | cons g gs =>
        simp only [List.map_cons, List.cons.injEq, Prod.mk.injEq] at hmask ha
        exact .cons ⟨ha.1.1, hmask.1.2, ha.1.2⟩ (ih gs ha.2 hmask.2)
  | _ => simp [Ty.mask] at hm

theorem Fields.lookup {fs gs : List (String × Ty)} (h : Fields k fs gs) {label : String}
    (hs : fs.lookup label = some s) : ∃ t, gs.lookup label = some t ∧ s.Alike k t := by
  induction h with
  | nil => cases hs
  | @cons f g fs gs hfg hfs ih =>
    rw [Assoc.lookup_cons_if] at hs
    rw [Assoc.lookup_cons_if, ← hfg.1]
    split_ifs at hs ⊢ with hl
    · exact ⟨g.2, rfl, Option.some.inj hs ▸ hfg.2⟩
    · exact ih hs

end Alike

end Ty

end TraitCalculus
