import Mathlib
import TraitCalculus.Proofs.Matching
import TraitCalculus.Proofs.TypeSubstitution

/-! Types that differ in the names of free variables. A renaming acts on nameless forms, where no
quantifier can capture the new names; it commutes with instances and with binding a name that
nothing else in the type is renamed to. Types that count as the same are renamed to types that are
equal up to the names of bound variables, and matching finds related types. -/
namespace TraitCalculus

namespace Nameless

mutual

/-- The free names replaced, all at once. -/
def rename (f : String → String) : Nameless → Nameless
  | bound i => bound i
  | free x => free (f x)
  | all bounds body => all bounds (body.rename f)
  | arrow dom cod => arrow (dom.rename f) (cod.rename f)
  | app fn arg => app (fn.rename f) (arg.rename f)
  | list elem => list (elem.rename f)
  | emptyList => emptyList
  | record fields => record (renameFields f fields)

def renameFields (f : String → String) : List (String × Nameless) → List (String × Nameless)
  | [] => []
  | (label, t) :: fields => (label, t.rename f) :: renameFields f fields

end

mutual

/-- `new` for the variable of the quantifier that `i` others stand inside of. -/
def inst : Nameless → Nameless → Nat → Nameless
  | bound j, new, i => if j = i then new else bound j
  | free x, _, _ => free x
  | all bounds body, new, i => all bounds (body.inst new (i + 1))
  | arrow dom cod, new, i => arrow (dom.inst new i) (cod.inst new i)
  | app fn arg, new, i => app (fn.inst new i) (arg.inst new i)
  | list elem, new, i => list (elem.inst new i)
  | emptyList, _, _ => emptyList
  | record fields, new, i => record (instFields fields new i)

def instFields : List (String × Nameless) → Nameless → Nat → List (String × Nameless)
  | [], _, _ => []
  | (label, t) :: fields, new, i => (label, t.inst new i) :: instFields fields new i

end

mutual

/-- Without trait bounds, and with all fields in the order of their labels. -/
def plain : Nameless → Nameless
  | bound i => bound i
  | free x => free x
  | all _ body => all [] body.plain
  | arrow dom cod => arrow dom.plain cod.plain
  | app fn arg => app fn.plain arg.plain
  | list elem => list elem.plain
  | emptyList => emptyList
  | record fields => record (Ty.sortByLabel (plainFields fields))

def plainFields : List (String × Nameless) → List (String × Nameless)
  | [] => []
  | (label, t) :: fields => (label, t.plain) :: plainFields fields

end

-- Every proof below unfolds these, so their equations are made here, once.
attribute [local simp] rename inst plain in
theorem renameFields_eq (f : String → String) (fields : List (String × Nameless)) :
    renameFields f fields = fields.map fun g => (g.1, g.2.rename f) :=
  walk_eq_map rfl (fun _ _ => rfl) fields

theorem instFields_eq (fields : List (String × Nameless)) (new : Nameless) (i : Nat) :
    instFields fields new i = fields.map fun g => (g.1, g.2.inst new i) := by
  induction fields with
  | nil => rfl
  | cons g fields ih => simp [instFields, ih]

theorem plainFields_eq (fields : List (String × Nameless)) :
    plainFields fields = fields.map fun g => (g.1, g.2.plain) :=
  walk_eq_map rfl (fun _ _ => rfl) fields

theorem rename_congr (t : Nameless) {f g : String → String} (h : ∀ x ∈ t.freeNames, f x = g x) :
    t.rename f = t.rename g := by
  induction t using Nameless.induction with
  | bound i => rfl
  | free x => rw [rename, rename, h x (List.mem_singleton.mpr rfl)]
  | all bounds body ih => rw [rename, rename, ih h]
  | arrow dom cod ihd ihc | app fn arg ihd ihc =>
    rw [rename, rename, ihd fun x hx => h x (List.mem_append_left _ hx),
      ihc fun x hx => h x (List.mem_append_right _ hx)]
  | list elem ih => rw [rename, rename, ih h]
  | emptyList => rfl
  | record fields ih =>
    rw [rename, rename, renameFields_eq, renameFields_eq]
    congr 1
    apply List.map_congr_left
    intro e he
    rw [ih e he fun x hx => h x (mem_freeNamesFields.mpr ⟨e, he, hx⟩)]

theorem rename_id (t : Nameless) : t.rename id = t := by
  induction t using Nameless.induction with
  | bound | free | emptyList => rfl
  | all bounds body ih => rw [rename, ih]
  | arrow dom cod ihd ihc => rw [rename, ihd, ihc]
  | app fn arg ihf iha => rw [rename, ihf, iha]
  | list elem ih => rw [rename, ih]
  | record fields ih =>
    rw [rename, renameFields_eq]
    congr 1
    calc
      fields.map (fun g => (g.1, g.2.rename id)) = fields.map id := by
        apply List.map_congr_left
        intro g hg
        rw [ih g hg]
        rfl
      _ = fields := List.map_id fields

theorem rename_rename (t : Nameless) (f g : String → String) :
    (t.rename f).rename g = t.rename (g ∘ f) := by
  induction t using Nameless.induction with
  | bound | free | emptyList => rfl
  | all bounds body ih => rw [rename, rename, rename, ih]
  | arrow dom cod ihd ihc => rw [rename, rename, rename, ihd, ihc]
  | app fn arg ihf iha => rw [rename, rename, rename, ihf, iha]
  | list elem ih => rw [rename, rename, rename, ih]
  | record fields ih =>
    rw [rename, rename, rename, renameFields_eq, renameFields_eq, renameFields_eq, List.map_map]
    congr 1
    apply List.map_congr_left
    intro e he
    exact Prod.ext rfl (ih e he)

theorem mem_freeNames_rename (t : Nameless) (f : String → String) (y : String) :
    y ∈ (t.rename f).freeNames ↔ ∃ x ∈ t.freeNames, f x = y := by
  induction t using Nameless.induction with
  | bound | emptyList => simp [rename, freeNames]
  | free x => simp [rename, freeNames, eq_comm]
  | all bounds body ih => exact ih
  | arrow dom cod ihd ihc =>
    simp only [rename, freeNames, List.mem_append, ihd, ihc, or_and_right, exists_or]
  | app fn arg ihf iha =>
    simp only [rename, freeNames, List.mem_append, ihf, iha, or_and_right, exists_or]
  | list elem ih => exact ih
  | record fields ih =>
    simp only [rename, freeNames, renameFields_eq, mem_freeNamesFields, List.mem_map]
    constructor
    · rintro ⟨_, ⟨e, he, rfl⟩, hy⟩
      obtain ⟨x, hx, hxy⟩ := (ih e he).mp hy
      exact ⟨x, ⟨e, he, hx⟩, hxy⟩
    · rintro ⟨x, ⟨e, he, hx⟩, hxy⟩
      exact ⟨_, ⟨e, he, rfl⟩, (ih e he).mpr ⟨x, hx, hxy⟩⟩

/-- Renaming commutes with instances. -/
theorem rename_inst (t : Nameless) (f : String → String) (new : Nameless) (i : Nat) :
    (t.inst new i).rename f = (t.rename f).inst (new.rename f) i := by
  induction t using Nameless.induction generalizing i with
  | bound j =>
    rw [rename, inst, inst]
    split_ifs
    · rfl
    · rfl
  | free | emptyList => rfl
  | all bounds body ih => rw [inst, rename, rename, inst, ih]
  | arrow dom cod ihd ihc => rw [inst, rename, rename, inst, ihd, ihc]
  | app fn arg ihf iha => rw [inst, rename, rename, inst, ihf, iha]
  | list elem ih => rw [inst, rename, rename, inst, ih]
  | record fields ih =>
    rw [inst, rename, rename, inst, instFields_eq, renameFields_eq, renameFields_eq,
      instFields_eq, List.map_map, List.map_map]
    congr 1
    apply List.map_congr_left
    intro g hg
    exact Prod.ext rfl (ih g hg i)

/-- Binding `x'` after a renaming of `x` to it. No other name may be renamed to `x'`, or it would
be captured. -/
theorem close_rename_of_apart (t : Nameless) {f g : String → String} {x x' : String} (i : Nat)
    (hx : g x = x') (h : ∀ y ∈ t.freeNames, y ≠ x → g y = f y ∧ f y ≠ x') :
    (t.rename g).close [x'] i = (t.close [x] i).rename f := by
  induction t using Nameless.induction generalizing i with
  | bound | emptyList => rfl
  | free y =>
    by_cases hy : y = x
    · simp [rename, close, hy, hx]
    · obtain ⟨hgy, hfy⟩ := h y (List.mem_singleton.mpr rfl) hy
      simp [rename, close, hy, hgy, hfy]
  | all bounds body ih => rw [rename, close, close, rename, ih (i + 1) h]
  | arrow dom cod ihd ihc =>
    rw [rename, close, close, rename, ihd i fun y hy => h y (List.mem_append_left _ hy),
      ihc i fun y hy => h y (List.mem_append_right _ hy)]
  | app fn arg ihf iha =>
    rw [rename, close, close, rename, ihf i fun y hy => h y (List.mem_append_left _ hy),
      iha i fun y hy => h y (List.mem_append_right _ hy)]
  | list elem ih => rw [rename, close, close, rename, ih i h]
  | record fields ih =>
    rw [rename, close, close, rename, renameFields_eq, closeFields_eq, closeFields_eq,
      renameFields_eq, List.map_map, List.map_map]
    congr 1
    apply List.map_congr_left
    intro e he
    exact Prod.ext rfl (ih e he i fun y hy => h y (mem_freeNamesFields.mpr ⟨e, he, hy⟩))

theorem sortByLabel_map {α β : Type} (u : α → β) (fs : List (String × α)) :
    Ty.sortByLabel (fs.map fun g => (g.1, u g.2)) =
      (Ty.sortByLabel fs).map fun g => (g.1, u g.2) := by
  symm
  apply List.map_insertionSort
  intro g _ h _
  rfl

theorem plain_rename (t : Nameless) (f : String → String) :
    (t.rename f).plain = t.plain.rename f := by
  induction t using Nameless.induction with
  | bound | free | emptyList => rfl
  | all bounds body ih => rw [rename, plain, plain, rename, ih]
  | arrow dom cod ihd ihc => rw [rename, plain, plain, rename, ihd, ihc]
  | app fn arg ihf iha => rw [rename, plain, plain, rename, ihf, iha]
  | list elem ih => rw [rename, plain, plain, rename, ih]
  | record fields ih =>
    have hfields : plainFields (renameFields f fields) =
        (plainFields fields).map fun g => (g.1, g.2.rename f) := by
      rw [plainFields_eq, plainFields_eq, renameFields_eq, List.map_map, List.map_map]
      apply List.map_congr_left
      intro g hg
      exact Prod.ext rfl (ih g hg)
    rw [rename, plain, plain, rename, hfields, renameFields_eq, sortByLabel_map (rename f)]

/-- Matching up to the names of bound variables: all leaves of the pattern are the variable, and
they find types whose plain form is `N`. -/
inductive Fits (N : Nameless) : Nameless → Nameless → Prop
  | leaf {t : Nameless} (h : t.plain = N) : Fits N (bound 0) t
  | arrow {a b c d : Nameless} (hd : Fits N a c) (hc : Fits N b d) :
      Fits N (arrow a b) (arrow c d)
  | list {a b : Nameless} (h : Fits N a b) : Fits N (list a) (list b)
  | record {fs gs : List (String × Nameless)} (found : String → Nameless) (hne : fs ≠ [])
      (hlabels : ∀ label, label ∈ fs.map (·.1) ↔ label ∈ gs.map (·.1))
      (hfound : ∀ g ∈ fs, gs.lookup g.1 = some (found g.1))
      (h : ∀ g ∈ fs, Fits N g.2 (found g.1)) : Fits N (record fs) (record gs)

theorem labels_renameFields (f : String → String) (fields : List (String × Nameless)) :
    (renameFields f fields).map (·.1) = fields.map (·.1) := by
  rw [renameFields_eq, List.map_map]
  rfl

theorem Fits.rename {N s t : Nameless} (h : Fits N s t) (f : String → String) :
    Fits (N.rename f) (s.rename f) (t.rename f) := by
  induction h with
  | leaf h =>
    apply Fits.leaf
    rw [plain_rename, h]
  | arrow _ _ ihd ihc => exact .arrow ihd ihc
  | list _ ih => exact .list ih
  | @record fs gs found hne hlabels hfound _ ih =>
    apply Fits.record fun label => (found label).rename f
    · rw [renameFields_eq]
      exact fun he => hne (List.map_eq_nil_iff.mp he)
    · rw [labels_renameFields, labels_renameFields]
      exact hlabels
    · intro g hg
      rw [renameFields_eq] at hg
      obtain ⟨e, he, rfl⟩ := List.mem_map.mp hg
      rw [renameFields_eq, Assoc.lookup_map (Nameless.rename f), hfound e he, Option.map_some]
    · intro g hg
      rw [renameFields_eq] at hg
      obtain ⟨e, he, rfl⟩ := List.mem_map.mp hg
      exact ih e he

end Nameless

namespace Ty

/-- An instance of a quantified type, from its nameless form. -/
theorem inst_nameless (t : Ty) (ys : List String) (x : String) (new : Nameless) :
    (t.nameless (ys ++ [x])).inst new ys.length = (t.nameless ys).subst x new := by
  induction t using Ty.induction generalizing ys with
  | name line y =>
    by_cases hy : y ∈ ys
    · have hne : ys.idxOf y ≠ ys.length := (List.idxOf_lt_length_of_mem hy).ne
      simp [nameless, Nameless.inst, Nameless.subst, hy, List.idxOf_append, hne]
    · by_cases hx : y = x
      · simp [nameless, Nameless.inst, Nameless.subst, hx, hx ▸ hy, List.idxOf_append]
      · simp [nameless, Nameless.inst, Nameless.subst, hx, hy]
  | all line y bounds body ih =>
    rw [nameless, nameless, Nameless.inst, Nameless.subst, ← List.cons_append, ← ih]
    rfl
  | arrow line dom cod ihd ihc | app line fn arg ihd ihc =>
    rw [nameless, nameless, Nameless.inst, Nameless.subst, ihd, ihc]
  | list line elem ih => rw [nameless, nameless, Nameless.inst, Nameless.subst, ih]
  | emptyList => rfl
  | record line fields ih =>
    rw [nameless, nameless, Nameless.inst, Nameless.subst, namelessFields_eq, namelessFields_eq,
      Nameless.instFields_eq, Nameless.substFields_eq, List.map_map, List.map_map]
    congr 1
    apply List.map_congr_left
    intro g hg
    exact Prod.ext rfl (ih g hg ys)

theorem plain_nameless (t : Ty) (xs : List String) :
    (t.nameless xs).plain = t.sorted.nameless xs := by
  induction t using Ty.induction generalizing xs with
  | name line x =>
    rw [sorted, nameless, nameless]
    split_ifs
    · rfl
    · rfl
  | all line x bounds body ih | list line elem ih =>
    rw [nameless, Nameless.plain, sorted, nameless, ih]
  | arrow line dom cod ihd ihc | app line fn arg ihd ihc =>
    rw [nameless, Nameless.plain, sorted, nameless, ihd, ihc]
  | emptyList => rfl
  | record line fields ih =>
    have hfields : Nameless.plainFields (namelessFields xs fields) =
        (sortedFields fields).map fun g => (g.1, g.2.nameless xs) := by
      rw [Nameless.plainFields_eq, namelessFields_eq, sortedFields_eq, List.map_map, List.map_map]
      apply List.map_congr_left
      intro g hg
      exact Prod.ext rfl (ih g hg xs)
    rw [nameless, Nameless.plain, sorted, nameless, hfields,
      Nameless.sortByLabel_map (nameless xs), namelessFields_eq]

section Inversion

variable {t : Ty} {xs : List String}

theorem nameless_eq_all {bounds : List String} {A : Nameless} (h : t.nameless xs = .all bounds A) :
    ∃ line x body, t = all line x bounds body ∧ body.nameless (x :: xs) = A := by
  cases t with
  | all line x bounds' body =>
    obtain ⟨rfl, hbody⟩ := Nameless.all.inj h
    exact ⟨line, x, body, rfl, hbody⟩
  | name line x =>
    rw [nameless] at h
    split_ifs at h
  | _ => cases h

theorem nameless_eq_arrow {A B : Nameless} (h : t.nameless xs = .arrow A B) :
    ∃ line dom cod, t = arrow line dom cod ∧ dom.nameless xs = A ∧ cod.nameless xs = B := by
  cases t with
  | arrow line dom cod =>
    obtain ⟨hd, hc⟩ := Nameless.arrow.inj h
    exact ⟨line, dom, cod, rfl, hd, hc⟩
  | name line x =>
    rw [nameless] at h
    split_ifs at h
  | _ => cases h

theorem nameless_eq_list {A : Nameless} (h : t.nameless xs = .list A) :
    ∃ line elem, t = list line elem ∧ elem.nameless xs = A := by
  cases t with
  | list line elem => exact ⟨line, elem, rfl, Nameless.list.inj h⟩
  | name line x =>
    rw [nameless] at h
    split_ifs at h
  | _ => cases h

theorem nameless_eq_record {As : List (String × Nameless)} (h : t.nameless xs = .record As) :
    ∃ line fields, t = record line fields ∧ namelessFields xs fields = As := by
  cases t with
  | record line fields => exact ⟨line, fields, rfl, Nameless.record.inj h⟩
  | name line x =>
    rw [nameless] at h
    split_ifs at h
  | _ => cases h

theorem nameless_eq_emptyList (h : t.nameless xs = .emptyList) : t = emptyList := by
  cases t with
  | emptyList => rfl
  | name line x =>
    rw [nameless] at h
    split_ifs at h
  | _ => cases h

theorem nameless_eq_free {x : String} (h : t.nameless xs = .free x) : ∃ line, t = name line x := by
  cases t with
  | name line y =>
    rw [nameless] at h
    split_ifs at h
    exact ⟨line, Nameless.free.inj h ▸ rfl⟩
  | _ => cases h

theorem nameless_eq_bound {x : String} (h : t.nameless [x] = .bound 0) :
    ∃ line, t = name line x := by
  cases t with
  | name line y =>
    rw [nameless] at h
    split_ifs at h with hy
    exact ⟨line, List.mem_singleton.mp hy ▸ rfl⟩
  | _ => cases h

end Inversion

/-- The types count as the same up to the names of bound variables. -/
def AlphaSame (s t : Ty) : Prop := (s.nameless []).plain = (t.nameless []).plain

theorem alphaSame_of_same {s t : Ty} (h : s.same t = true) : s.AlphaSame t := by
  rw [AlphaSame, plain_nameless, plain_nameless, (same_iff_sorted s t).mp h]

/-- Names that are not bound count as the same already. -/
theorem AlphaSame.same_name {line : Option Nat} {x : String} {t : Ty}
    (h : (name line x).AlphaSame t) : (name line x).same t = true := by
  cases t with
  | name line' y => simpa [AlphaSame, nameless, Nameless.plain, same] using h
  | _ => simp [AlphaSame, nameless, Nameless.plain] at h

/-- The second type is the first one with its free names replaced, up to the names of bound
variables. -/
def Renames (f : String → String) (t t' : Ty) : Prop := t'.nameless [] = (t.nameless []).rename f

namespace Renames

variable {f : String → String} {s s' t t' u u' : Ty} {x x' : String}

theorem refl (t : Ty) : t.Renames id t := (Nameless.rename_id _).symm

theorem congr (h : t.Renames f t') {g : String → String} (hg : ∀ w ∈ t.free, f w = g w) :
    t.Renames g t' := by
  unfold Renames at h ⊢
  rw [h]
  apply Nameless.rename_congr
  intro w hw
  exact hg w ((mem_free_iff_nameless t w).mpr hw)

theorem mem_free (h : t.Renames f t') {y : String} : y ∈ t'.free ↔ ∃ x ∈ t.free, f x = y := by
  simp only [mem_free_iff_nameless]
  rw [h, Nameless.mem_freeNames_rename]

/-- Only types whose free names are kept are related to themselves. -/
theorem of_fixed (h : ∀ w ∈ t.free, f w = w) : t.Renames f t :=
  (refl t).congr fun w hw => (h w hw).symm

theorem alphaSame (hs : s.Renames f s') (ht : t.Renames f t') (h : s.same t = true) :
    s'.AlphaSame t' := by
  unfold AlphaSame
  rw [hs, ht, Nameless.plain_rename, Nameless.plain_rename, alphaSame_of_same h]

theorem name_left {line : Option Nat} (h : (name line x).Renames f t') :
    ∃ line', t' = name line' (f x) :=
  nameless_eq_free h

theorem all_left {line : Option Nat} {bounds : List String} {body : Ty}
    (h : (all line x bounds body).Renames f t') :
    ∃ line' x' body', t' = all line' x' bounds body' ∧
      body'.nameless [x'] = (body.nameless [x]).rename f :=
  nameless_eq_all h

theorem arrow_left {line : Option Nat} {dom cod : Ty} (h : (arrow line dom cod).Renames f t') :
    ∃ line' dom' cod', t' = arrow line' dom' cod' ∧ dom.Renames f dom' ∧ cod.Renames f cod' :=
  nameless_eq_arrow h

theorem list_left {line : Option Nat} {elem : Ty} (h : (list line elem).Renames f t') :
    ∃ line' elem', t' = list line' elem' ∧ elem.Renames f elem' :=
  nameless_eq_list h

theorem record_left {line : Option Nat} {fields : List (String × Ty)}
    (h : (record line fields).Renames f t') :
    ∃ line' fields', t' = record line' fields' ∧
      namelessFields [] fields' = Nameless.renameFields f (namelessFields [] fields) :=
  nameless_eq_record h

theorem arrow (hs : s.Renames f s') (ht : t.Renames f t') (line line' : Option Nat) :
    (arrow line s t).Renames f (.arrow line' s' t') := by
  rw [Renames, nameless, nameless, Nameless.rename, hs, ht]

theorem list (h : t.Renames f t') (line line' : Option Nat) :
    (list line t).Renames f (.list line' t') := by
  rw [Renames, nameless, nameless, Nameless.rename, h]

theorem record_cons (h : t.Renames f t') (label : String) {line line' : Option Nat}
    {fields fields' : List (String × Ty)} (hs : (record line fields).Renames f (record line' fields')) :
    (record line ((label, t) :: fields)).Renames f (.record line' ((label, t') :: fields')) := by
  have hfields : namelessFields [] fields' = Nameless.renameFields f (namelessFields [] fields) :=
    Nameless.record.inj hs
  rw [Renames, nameless, nameless, Nameless.rename, namelessFields, namelessFields,
    Nameless.renameFields, h, hfields]

/-- Under a type lambda, which gives its own variable another name. -/
theorem update (h : t.Renames f t') (hx : x ∈ t.free → f x = x') :
    t.Renames (Function.update f x x') t' := by
  apply h.congr
  intro w hw
  by_cases hwx : w = x
  · subst hwx
    rw [Function.update_self, hx hw]
  · rw [Function.update_of_ne hwx]

/-- Out of a type lambda. No other free name may become that of the variable. -/
theorem all (h : t.Renames (Function.update f x x') t')
    (hx : ∀ y ∈ t.free, y ≠ x → f y ≠ x') (line line' : Option Nat) (bounds : List String) :
    (all line x bounds t).Renames f (.all line' x' bounds t') := by
  have hbody : t'.nameless [x'] = (t.nameless [x]).rename f := by
    rw [nameless_singleton, nameless_singleton, h]
    apply Nameless.close_rename_of_apart _ 0 (Function.update_self x x' f)
    intro y hy hyx
    exact ⟨Function.update_of_ne hyx x' f, hx y ((mem_free_iff_nameless t y).mpr hy) hyx⟩
  rw [Renames, nameless, nameless, Nameless.rename, hbody]

/-- Instances of quantified types that are related. -/
theorem subst {body body' : Ty} (hbody : body'.nameless [x'] = (body.nameless [x]).rename f)
    (ht : t.Renames f t') : (body'.nameless []).subst x' (t'.nameless []) =
      ((body.nameless []).subst x (t.nameless [])).rename f := by
  calc
    (body'.nameless []).subst x' (t'.nameless [])
      = (body'.nameless [x']).inst (t'.nameless []) 0 := (inst_nameless body' [] x' _).symm
    _ = ((body.nameless [x]).rename f).inst ((t.nameless []).rename f) 0 := by rw [hbody, ht]
    _ = ((body.nameless [x]).inst (t.nameless []) 0).rename f :=
      (Nameless.rename_inst _ f _ 0).symm
    _ = ((body.nameless []).subst x (t.nameless [])).rename f := by
      rw [← inst_nameless body [] x]
      rfl

end Renames

section Fields

variable {f : String → String} {xs xs' : List String} {fs fs' : List (String × Ty)}

theorem lookup_of_renameFields
    (h : namelessFields xs' fs' = Nameless.renameFields f (namelessFields xs fs)) {label : String}
    {t : Ty} (ht : fs.lookup label = some t) :
    ∃ t', fs'.lookup label = some t' ∧ t'.nameless xs' = (t.nameless xs).rename f := by
  have hlookup := congrArg (List.lookup label) h
  rw [Nameless.renameFields_eq, Assoc.lookup_map (Nameless.rename f), namelessFields_eq,
    namelessFields_eq, Assoc.lookup_map (nameless xs'), Assoc.lookup_map (nameless xs), ht,
    Option.map_some, Option.map_some] at hlookup
  exact Option.map_eq_some_iff.mp hlookup

end Fields

/-- What matching finds, it finds up to the names of bound variables. -/
theorem Finds.fits {x : String} {s t u : Ty} (h : Finds x s t u) :
    Nameless.Fits (u.nameless []).plain (s.nameless [x]) (t.nameless []) := by
  induction h with
  | @name line t =>
    have hleaf : (Ty.name line x).nameless [x] = .bound 0 := by simp [nameless]
    rw [hleaf]
    exact .leaf rfl
  | arrow _ _ hsame ihd ihc =>
    rw [← alphaSame_of_same hsame] at ihc
    exact .arrow ihd ihc
  | list _ ih => exact .list ih
  | @record line line' fs gs last other found hlabels hother _ hsame hlast ih =>
    have hmap (ys : List String) (ds : List (String × Ty)) :
        (namelessFields ys ds).map (·.1) = ds.map (·.1) := by
      rw [namelessFields_eq, List.map_map]
      rfl
    rw [nameless, nameless]
    -- each field is matched with the first one of its label
    apply Nameless.Fits.record fun label => (((gs.lookup label).map (nameless [])).getD .emptyList)
    · rw [namelessFields_eq]
      exact fun he => List.ne_nil_of_mem (List.mem_of_getLast? hlast) (List.map_eq_nil_iff.mp he)
    · rw [hmap, hmap]
      exact sameLabels_iff.mp hlabels
    · intro e he
      rw [namelessFields_eq] at he
      obtain ⟨d, hd, rfl⟩ := List.mem_map.mp he
      rw [namelessFields_eq, Assoc.lookup_map (nameless [])]
      simp [hother d hd]
    · intro e he
      rw [namelessFields_eq] at he
      obtain ⟨d, hd, rfl⟩ := List.mem_map.mp he
      have hfit := ih d hd
      rw [alphaSame_of_same (hsame d hd)] at hfit
      simpa [hother d hd] using hfit

/-- Matching finds related types in related patterns, if it finds any. -/
theorem Finds.renames {f : String → String} {x x' : String} {s s' t t' u u' : Ty}
    (h : Finds x s t u) (hs : s'.nameless [x'] = (s.nameless [x]).rename f) (ht : t.Renames f t')
    (h' : Finds x' s' t' u') : u.Renames f u' := by
  induction h generalizing s' t' u' with
  | @name line t =>
    have hleaf : s'.nameless [x'] = .bound 0 := by
      rw [hs]
      simp [nameless, Nameless.rename]
    obtain ⟨line', rfl⟩ := nameless_eq_bound hleaf
    cases h'
    exact ht
  | arrow _ _ _ ihd _ =>
    obtain ⟨_, c', d', rfl, hc, -⟩ := ht.arrow_left
    obtain ⟨_, a', b', rfl, ha, -⟩ := nameless_eq_arrow hs
    cases h' with
    | arrow hd' _ _ => exact ihd ha hc hd'
  | list _ ih =>
    obtain ⟨_, c', rfl, hc⟩ := ht.list_left
    obtain ⟨_, a', rfl, ha⟩ := nameless_eq_list hs
    cases h' with
    | list h' => exact ih ha hc h'
  | @record line line' fs gs last other found _ hother _ _ hlast ih =>
    obtain ⟨_, gs', rfl, hgs⟩ := ht.record_left
    obtain ⟨_, fs', rfl, hfs⟩ := nameless_eq_record hs
    cases h' with
    | @record _ _ _ _ last' other' found' _ hother' h' _ hlast' =>
      have hmem : last ∈ fs := List.mem_of_getLast? hlast
      have hmem' : last' ∈ fs' := List.mem_of_getLast? hlast'
      -- the last fields stand at the same place
      have hlasts := congrArg List.getLast? hfs
      rw [Nameless.renameFields_eq, namelessFields_eq, namelessFields_eq, List.map_map,
        List.getLast?_map, List.getLast?_map, hlast, hlast'] at hlasts
      obtain ⟨hlabel, hpattern⟩ : last'.1 = last.1 ∧
        last'.2.nameless [x'] = (last.2.nameless [x]).rename f := Prod.mk.inj (Option.some.inj hlasts)
      obtain ⟨g', hg', hgg⟩ := lookup_of_renameFields hgs (hother last hmem)
      rw [← hlabel, hother' last' hmem'] at hg'
      obtain rfl : other' last' = g' := Option.some.inj hg'
      exact ih last hmem hpattern hgg (h' last' hmem')

end Ty

end TraitCalculus
