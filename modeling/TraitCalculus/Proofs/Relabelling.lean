import Mathlib
import TraitCalculus.Proofs.RenamedTyping

/-! Relabelling of a type variable. The occurrences of a type lambda's variable get another name,
up to inner type lambdas that bind the name again. If the new name occurs nowhere, and the old one
is not bound again where something in scope has it in its type, then the expression and the
relabelled one are renamed forms of each other. -/
namespace TraitCalculus

namespace Ty

mutual

/-- The free name `a` called `b`. -/
def relabel (a b : String) : Ty → Ty
  | name line x => name line (if x = a then b else x)
  | all line x bounds body =>
    if x = a then all line x bounds body else all line x bounds (body.relabel a b)
  | arrow line dom cod => arrow line (dom.relabel a b) (cod.relabel a b)
  | app line fn arg => app line (fn.relabel a b) (arg.relabel a b)
  | list line elem => list line (elem.relabel a b)
  | emptyList => emptyList
  | record line fields => record line (relabelFields a b fields)

def relabelFields (a b : String) : List (String × Ty) → List (String × Ty)
  | [] => []
  | (label, t) :: fields => (label, t.relabel a b) :: relabelFields a b fields

end

variable {a b : String}

theorem relabelFields_eq (fields : List (String × Ty)) :
    relabelFields a b fields = fields.map fun f => (f.1, f.2.relabel a b) :=
  walk_eq_map rfl (fun _ _ => rfl) fields

/-- If the new name is not in the way, then relabelling is a renaming of nameless forms. -/
theorem nameless_relabel (t : Ty) (xs : List String) (ha : a ∉ xs) (hxs : b ∉ xs)
    (hb : b ∉ t.names) :
    (t.relabel a b).nameless xs = (t.nameless xs).rename (Function.update id a b) := by
  induction t using Ty.induction generalizing xs with
  | name line x =>
    by_cases hx : x = a
    · simp [relabel, nameless, Nameless.rename, hx, ha, hxs]
    · rw [relabel, if_neg hx, nameless]
      split_ifs
      · rfl
      · simp [Nameless.rename, hx]
  | all line x bounds body ih =>
    obtain ⟨hx, hbody⟩ := not_or.mp (mt List.mem_cons.mpr hb)
    by_cases hxa : x = a
    · -- the occurrences inside belong to another quantifier
      have hfree : ∀ y ∈ ((all line x bounds body).nameless xs).freeNames,
          id y = Function.update id a b y := by
        intro y hy
        have hya : y ≠ a := by
          rintro rfl
          simp [mem_freeNames_nameless, free, hxa] at hy
        rw [Function.update_of_ne hya]
      rw [relabel, if_pos hxa, ← Nameless.rename_congr _ hfree, Nameless.rename_id]
    · rw [relabel, if_neg hxa, nameless, nameless, Nameless.rename,
        ih (x :: xs) (by simp [ha, Ne.symm hxa]) (by simp [hxs, hx]) hbody]
  | arrow line dom cod ihd ihc | app line fn arg ihd ihc =>
    obtain ⟨hd, hc⟩ := not_or.mp (mt List.mem_append.mpr hb)
    rw [relabel, nameless, nameless, Nameless.rename, ihd xs ha hxs hd, ihc xs ha hxs hc]
  | list line elem ih => rw [relabel, nameless, nameless, Nameless.rename, ih xs ha hxs hb]
  | emptyList => rfl
  | record line fields ih =>
    rw [relabel, nameless, nameless, Nameless.rename, relabelFields_eq, namelessFields_eq,
      namelessFields_eq, Nameless.renameFields_eq, List.map_map, List.map_map]
    congr 1
    apply List.map_congr_left
    intro f hf
    exact Prod.ext rfl (ih f hf xs ha hxs fun h => hb (mem_namesFields.mpr ⟨f, hf, h⟩))

theorem renames_relabel {t : Ty} (hb : b ∉ t.names) :
    t.Renames (Function.update id a b) (t.relabel a b) :=
  nameless_relabel t [] (by simp) (by simp) hb

/-- The old name comes back, as nothing else has the new one. -/
theorem relabel_renames {t : Ty} (hb : b ∉ t.names) :
    (t.relabel a b).Renames (Function.update id b a) t := by
  have hback : ∀ y ∈ (t.nameless []).freeNames,
      id y = (Function.update id b a ∘ Function.update id a b) y := by
    intro y hy
    have hyb : y ≠ b := by
      rintro rfl
      exact hb (free_subset_names t y ((mem_free_iff_nameless t y).mpr hy))
    by_cases hya : y = a
    · simp [hya]
    · simp [hya, hyb]
  rw [Renames, renames_relabel hb, Nameless.rename_rename, ← Nameless.rename_congr _ hback,
    Nameless.rename_id]

theorem mem_free_relabel {t : Ty} (hb : b ∉ t.names) {y : String} :
    y ∈ (t.relabel a b).free ↔ (y ∈ t.free ∧ y ≠ a) ∨ (a ∈ t.free ∧ y = b) := by
  rw [(renames_relabel hb).mem_free]
  constructor
  · rintro ⟨x, hx, rfl⟩
    by_cases hxa : x = a
    · exact Or.inr ⟨hxa ▸ hx, by simp [hxa]⟩
    · exact Or.inl ⟨by simpa [hxa] using hx, by simp [hxa]⟩
  · rintro (⟨hy, hya⟩ | ⟨ha, rfl⟩)
    · exact ⟨y, hy, by simp [hya]⟩
    · exact ⟨a, ha, by simp⟩

theorem names_relabel (t : Ty) {y : String} (hy : y ∈ (t.relabel a b).names) :
    y = b ∨ y ∈ t.names := by
  induction t using Ty.induction with
  | name line x =>
    rw [relabel, names, List.mem_singleton] at hy
    split_ifs at hy
    · exact Or.inl hy
    · exact Or.inr (List.mem_singleton.mpr hy)
  | all line x bounds body ih =>
    rw [relabel] at hy
    split_ifs at hy
    · exact Or.inr hy
    · rcases List.mem_cons.mp hy with rfl | hy
      · exact Or.inr List.mem_cons_self
      · exact (ih hy).imp_right (List.mem_cons_of_mem x)
  | arrow line dom cod ihd ihc | app line fn arg ihd ihc =>
    rcases List.mem_append.mp hy with hy | hy
    · exact (ihd hy).imp_right (List.mem_append_left _)
    · exact (ihc hy).imp_right (List.mem_append_right _)
  | list line elem ih => exact ih hy
  | emptyList => cases hy
  | record line fields ih =>
    rw [relabel, names, mem_namesFields, relabelFields_eq] at hy
    obtain ⟨_, hg, hy⟩ := hy
    obtain ⟨f, hf, rfl⟩ := List.mem_map.mp hg
    exact (ih f hf hy).imp_right fun h => mem_namesFields.mpr ⟨f, hf, h⟩

theorem Within.relabel {t : Ty} {k : Nat} {F G : List String} (h : t.Within k F)
    (hb : b ∉ t.names) (hold : OldName k b) (hF : ∀ w ∈ F, w ≠ a → w ∈ G) (hG : b ∈ G) :
    (t.relabel a b).Within k G := by
  constructor
  · intro w hw
    rcases names_relabel t hw with rfl | hw
    · exact hold
    · exact h.old w hw
  · intro w hw
    rcases (mem_free_relabel hb).mp hw with ⟨hw, hwa⟩ | ⟨-, rfl⟩
    · exact hF w (h.inScope w hw) hwa
    · exact hG

end Ty

def Param.relabel (a b : String) : Param → Param
  | typed t => typed (t.relabel a b)
  | p => p

namespace Expr

mutual

/-- The type variable `a` called `b`, up to type lambdas that bind the name again. With `terms`, a
variable of this name stands for the type variable too. -/
def relabel (a b : String) (terms : Bool) : Expr → Expr
  | lam n x p body => lam n x (p.relabel a b) (body.relabel a b (terms && x ≠ a))
  | tlam n x bounds body =>
    if x = a then tlam n x bounds body else tlam n x bounds (body.relabel a b terms)
  | cond n c y z => cond n (c.relabel a b terms) (y.relabel a b terms) (z.relabel a b terms)
  | bin n op l r => bin n op (l.relabel a b terms) (r.relabel a b terms)
  | un n op e => un n op (e.relabel a b terms)
  | app n f e => app n (f.relabel a b terms) (e.relabel a b terms)
  | tapp n f t => tapp n (f.relabel a b terms) (t.relabel a b)
  | ascribe n e t => ascribe n (e.relabel a b terms) (t.relabel a b)
  | proj n e label => proj n (e.relabel a b terms) label
  | var n x => var n (if terms && x = a then b else x)
  | val n v => val n v
  | list n es => list n (relabelItems a b terms es)
  | record n fs => record n (relabelFields a b terms fs)

def relabelItems (a b : String) (terms : Bool) : List Expr → List Expr
  | [] => []
  | e :: es => e.relabel a b terms :: relabelItems a b terms es

def relabelFields (a b : String) (terms : Bool) : List (String × Expr) → List (String × Expr)
  | [] => []
  | (label, e) :: fs => (label, e.relabel a b terms) :: relabelFields a b terms fs

end

mutual

/-- No type lambda binds the name `a` where something in scope has it in its type; `live` tells
whether something around the expression has. -/
def reuseSafe (a : String) (live : Bool) : Expr → Bool
  | lam _ _ p body => body.reuseSafe a (live || a ∈ p.freeTypes)
  | tlam _ x _ body => if x = a then !live else body.reuseSafe a live
  | cond _ c y z => c.reuseSafe a live && (y.reuseSafe a live && z.reuseSafe a live)
  | bin _ _ l r => l.reuseSafe a live && r.reuseSafe a live
  | un _ _ e => e.reuseSafe a live
  | app _ f e => f.reuseSafe a live && e.reuseSafe a live
  | tapp _ f _ => f.reuseSafe a live
  | ascribe _ e _ => e.reuseSafe a live
  | proj _ e _ => e.reuseSafe a live
  | var .. => true
  | val .. => true
  | list _ es => reuseSafeItems a live es
  | record _ fs => reuseSafeFields a live fs

def reuseSafeItems (a : String) (live : Bool) : List Expr → Bool
  | [] => true
  | e :: es => e.reuseSafe a live && reuseSafeItems a live es

def reuseSafeFields (a : String) (live : Bool) : List (String × Expr) → Bool
  | [] => true
  | (_, e) :: fs => e.reuseSafe a live && reuseSafeFields a live fs

end

variable {a b : String} {terms live : Bool}

theorem relabelItems_eq (es : List Expr) :
    relabelItems a b terms es = es.map (relabel a b terms) :=
  walk_eq_map rfl (fun _ _ => rfl) es

theorem relabelFields_eq (fs : List (String × Expr)) :
    relabelFields a b terms fs = fs.map fun f => (f.1, f.2.relabel a b terms) :=
  walk_eq_map rfl (fun _ _ => rfl) fs

theorem reuseSafeItems_iff {es : List Expr} :
    reuseSafeItems a live es = true ↔ ∀ e ∈ es, e.reuseSafe a live = true :=
  walk_eq_true rfl (fun _ _ => rfl) es

theorem reuseSafeFields_iff {fs : List (String × Expr)} :
    reuseSafeFields a live fs = true ↔ ∀ f ∈ fs, f.2.reuseSafe a live = true :=
  walk_eq_true rfl (fun _ _ => rfl) fs

theorem openTypes_subset_typeNames (e : Expr) : ∀ y ∈ e.openTypes, y ∈ e.typeNames := by
  induction e using Expr.induction with
  | lam n x p body ih =>
    intro y hy
    rcases List.mem_append.mp hy with hy | hy
    · cases p with
      | typed t => exact List.mem_append_left _ (Ty.free_subset_names t y hy)
      | dictionary | erased => cases hy
    · exact List.mem_append_right _ (ih y hy)
  | tlam n x bounds body ih =>
    intro y hy
    exact List.mem_cons_of_mem x (ih y (List.mem_filter.mp hy).1)
  | cond n c y z ihc ihy ihz | bin n op l r ihl ihr | app n f e ihf ihe =>
    simp only [openTypes, typeNames, List.mem_append]
    grind
  | un n op e ih => exact ih
  | tapp n f t ih | ascribe n e t ih =>
    intro y hy
    rcases List.mem_append.mp hy with hy | hy
    · exact List.mem_append_left _ (ih y hy)
    · exact List.mem_append_right _ (Ty.free_subset_names t y hy)
  | proj n e label ih => exact ih
  | var n x => simp [openTypes]
  | val n v => simp [openTypes]
  | list n es ih =>
    intro y hy
    obtain ⟨e, he, hy⟩ := mem_openTypesItems.mp hy
    exact mem_typeNamesItems.mpr ⟨e, he, ih e he y hy⟩
  | record n fs ih =>
    intro y hy
    obtain ⟨f, hf, hy⟩ := mem_openTypesFields.mp hy
    exact mem_typeNamesFields.mpr ⟨f, hf, ih f hf y hy⟩

theorem renamedItems_map {ν : Naming} (g g' : Expr → Expr) (es : List Expr)
    (h : ∀ e ∈ es, (g e).Renamed ν (g' e)) : RenamedItems ν (es.map g) (es.map g') := by
  induction es with
  | nil => exact .nil
  | cons e es ih =>
    obtain ⟨he, hes⟩ := List.forall_mem_cons.mp h
    exact .cons he (ih hes)

theorem renamedFields_map {ν : Naming} (g g' : Expr → Expr) (fs : List (String × Expr))
    (h : ∀ f ∈ fs, (g f.2).Renamed ν (g' f.2)) :
    RenamedFields ν (fs.map fun f => (f.1, g f.2)) (fs.map fun f => (f.1, g' f.2)) := by
  induction fs with
  | nil => exact .nil
  | cons f fs ih =>
    obtain ⟨hf, hfs⟩ := List.forall_mem_cons.mp h
    exact .cons hf (ih hfs)

/-- An expression in which all names are as before. -/
theorem renamed_self (e : Expr) {ν : Naming} (hscope : ∀ y ∈ ν.scope, ν.types y = y)
    (htypes : ∀ y ∈ e.typeNames, ν.types y = y) (hhidden : ∀ x ∈ ν.hidden, x ∉ e.termNames) :
    e.Renamed ν e := by
  have hty {ν : Naming} {t : Ty} (h : ∀ y ∈ t.names, ν.types y = y) : t.Renames ν.types t :=
    .of_fixed fun y hy => h y (Ty.free_subset_names t y hy)
  induction e using Expr.induction generalizing ν with
  | lam n x p body ih =>
    obtain ⟨hp, hbody⟩ := List.forall_mem_append.mp htypes
    have hfree : ∀ y ∈ p.freeTypes, ν.types y = y := by
      cases p with
      | typed t => exact fun y hy => hp y (Ty.free_subset_names t y hy)
      | dictionary | erased => exact fun y hy => nomatch hy
    apply Renamed.lam
    · rintro t rfl
      exact ⟨t, rfl, .of_fixed hfree⟩
    · refine ih (List.forall_mem_append.mpr ⟨hfree, hscope⟩) hbody ?_
      intro y hy hmem
      exact hhidden y (List.mem_filter.mp hy).1 (List.mem_cons_of_mem x hmem)
  | tlam n x bounds body ih =>
    obtain ⟨hx, hbody⟩ := List.forall_mem_cons.mp htypes
    have hfixed : ∀ y, ν.types y = y → (ν.tlam x x bounds).types y = y := by
      intro y hy
      by_cases hyx : y = x
      · rw [hyx, ν.types_tlam_self]
      · rw [ν.types_tlam_of_ne x bounds hyx, hy]
    apply Renamed.tlam
    · intro y hy
      rw [hscope y hy]
    · intro y hy hyx
      rw [hbody y (openTypes_subset_typeNames body y hy)]
      exact hyx
    · refine ih (fun y hy => ?_) (fun y hy => hfixed y (hbody y hy)) ?_
      · rcases ν.mem_scope_tlam hy with rfl | hy
        · exact hfixed y hx
        · exact hfixed y (hscope y hy)
      · intro y hy
        obtain ⟨hy, hyx⟩ := List.mem_filter.mp hy
        exact hhidden y ((List.mem_cons.mp hy).resolve_left (by simpa using hyx))
  | cond n c y z ihc ihy ihz =>
    simp only [typeNames, termNames, List.mem_append, not_or] at htypes hhidden
    exact .cond (ihc hscope (fun w hw => htypes w (Or.inl hw)) fun w hw => (hhidden w hw).1)
      (ihy hscope (fun w hw => htypes w (Or.inr (Or.inl hw))) fun w hw => (hhidden w hw).2.1)
      (ihz hscope (fun w hw => htypes w (Or.inr (Or.inr hw))) fun w hw => (hhidden w hw).2.2)
  | bin n op l r ihl ihr =>
    simp only [typeNames, termNames, List.mem_append, not_or] at htypes hhidden
    exact .bin (ihl hscope (fun w hw => htypes w (Or.inl hw)) fun w hw => (hhidden w hw).1)
      (ihr hscope (fun w hw => htypes w (Or.inr hw)) fun w hw => (hhidden w hw).2)
  | un n op e ih => exact .un (ih hscope htypes hhidden)
  | app n f e ihf ihe =>
    simp only [typeNames, termNames, List.mem_append, not_or] at htypes hhidden
    exact .app (ihf hscope (fun w hw => htypes w (Or.inl hw)) fun w hw => (hhidden w hw).1)
      (ihe hscope (fun w hw => htypes w (Or.inr hw)) fun w hw => (hhidden w hw).2)
  | tapp n f t ih =>
    obtain ⟨hf, ht⟩ := List.forall_mem_append.mp htypes
    exact .tapp (ih hscope hf hhidden) (hty ht)
  | ascribe n e t ih =>
    obtain ⟨he, ht⟩ := List.forall_mem_append.mp htypes
    exact .ascribe (ih hscope he hhidden) (hty ht)
  | proj n e label ih => exact .proj (ih hscope htypes hhidden)
  | var n x => exact .var fun hx => hhidden x hx (List.mem_singleton.mpr rfl)
  | val n v => exact .val
  | list n es ih =>
    have hes := renamedItems_map id id es fun e he => ih e he hscope
      (fun y hy => htypes y (mem_typeNamesItems.mpr ⟨e, he, hy⟩))
      (fun y hy hm => hhidden y hy (mem_termNamesItems.mpr ⟨e, he, hm⟩))
    exact .list (by simpa using hes)
  | record n fs ih =>
    have hfs := renamedFields_map id id fs fun f hf => ih f hf hscope
      (fun y hy => htypes y (mem_typeNamesFields.mpr ⟨f, hf, hy⟩))
      (fun y hy hm => hhidden y hy (mem_termNamesFields.mpr ⟨f, hf, hm⟩))
    exact .record (by simpa using hfs)

end Expr

/-- Under a type lambda whose variable `c` is called `d` on the other side. Nothing in scope has
`d` in its type, and `live` tells whether something has `c`. -/
structure Swapped (c d : String) (terms live : Bool) (ν : Naming) : Prop where
  new : ν.types c = d
  fixed : ∀ y, y ≠ c → ν.types y = y
  clear : d ∉ ν.scope
  live : c ∈ ν.scope → live = true
  kind : terms = true → c ∈ ν.kinds
  hidden : ∀ x ∈ ν.hidden, x = d

namespace Swapped

variable {c d x : String} {terms live : Bool} {ν : Naming}

theorem lam (h : Swapped c d terms live ν) {p : Param} {terms' live' : Bool}
    (hp : d ∉ p.freeTypes) (hlive : live = true ∨ c ∈ p.freeTypes → live' = true)
    (hterms : terms' = true → terms = true ∧ c ≠ x) :
    Swapped c d terms' live' (ν.lam x p) where
  new := h.new
  fixed := h.fixed
  clear := fun hd => (List.mem_append.mp hd).elim hp h.clear
  live := fun hc => hlive ((List.mem_append.mp hc).symm.imp_left h.live)
  kind := fun ht => List.mem_filter.mpr ⟨h.kind (hterms ht).1, by simpa using (hterms ht).2⟩
  hidden := fun y hy => h.hidden y (List.mem_filter.mp hy).1

theorem tlam (h : Swapped c d terms live ν) (hc : x ≠ c) (hd : x ≠ d) (bounds : List String) :
    Swapped c d terms live (ν.tlam x x bounds) where
  new := by rw [ν.types_tlam_of_ne x bounds hc.symm, h.new]
  fixed := by
    intro y hy
    by_cases hyx : y = x
    · rw [hyx, ν.types_tlam_self]
    · rw [ν.types_tlam_of_ne x bounds hyx, h.fixed y hy]
  clear := fun hm => (ν.mem_scope_tlam hm).elim hd.symm h.clear
  live := fun hm => h.live ((ν.mem_scope_tlam hm).resolve_left hc.symm)
  kind := fun ht => List.mem_cons_of_mem x (h.kind ht)
  hidden := by
    intro y hy
    obtain ⟨hy, hyx⟩ := List.mem_filter.mp hy
    exact h.hidden y ((List.mem_cons.mp hy).resolve_left (by simpa using hyx))

/-- A type lambda over neither of the names keeps its variable. -/
theorem apart (h : Swapped c d terms live ν) (hc : x ≠ c) (hd : x ≠ d) : ν.Apart x x := by
  intro y hy
  by_cases hyc : y = c
  · subst hyc
    rw [h.new]
    exact iff_of_false hd.symm hc.symm
  · rw [h.fixed y hyc]

theorem types_ne (h : Swapped c d terms live ν) (hd : x ≠ d) {y : String} (hy : y ≠ x) :
    ν.types y ≠ x := by
  by_cases hyc : y = c
  · rw [hyc, h.new]
    exact hd.symm
  · rw [h.fixed y hyc]
    exact hy

/-- A type lambda that binds one of the names again, and is left as it is. -/
theorem rebind (h : Swapped c d terms live ν) (hc : c ∉ ν.scope) {n : Note} {bounds : List String}
    {body : Expr} (htypes : ∀ y ∈ body.typeNames, y = x ∨ y ≠ c)
    (hhidden : ∀ y ∈ ν.hidden, y ≠ x → y ∉ body.termNames) :
    (Expr.tlam n x bounds body).Renamed ν (.tlam n x bounds body) := by
  have hscope : ∀ y ∈ ν.scope, ν.types y = y := by
    intro y hy
    apply h.fixed
    rintro rfl
    exact hc hy
  have hfixed : ∀ y, y = x ∨ ν.types y = y → (ν.tlam x x bounds).types y = y := by
    intro y hy
    by_cases hyx : y = x
    · rw [hyx, ν.types_tlam_self]
    · rw [ν.types_tlam_of_ne x bounds hyx, hy.resolve_left hyx]
  apply Expr.Renamed.tlam
  · intro y hy
    rw [hscope y hy]
  · intro y hy hyx
    have hyc : y ≠ c := (htypes y (body.openTypes_subset_typeNames y hy)).resolve_left hyx
    rw [h.fixed y hyc]
    exact hyx
  · apply Expr.renamed_self
    · intro y hy
      exact hfixed y ((ν.mem_scope_tlam hy).imp_right (hscope y))
    · intro y hy
      exact hfixed y ((htypes y hy).imp_right (h.fixed y))
    · intro y hy
      obtain ⟨hy, hyx⟩ := List.mem_filter.mp hy
      have hne : y ≠ x := by simpa using hyx
      exact hhidden y ((List.mem_cons.mp hy).resolve_left hne) hne

end Swapped

namespace Ty

variable {a b : String} {terms live : Bool} {ν : Naming} {t : Ty}

theorem renames_of_swapped (h : Swapped a b terms live ν) (hb : b ∉ t.names) :
    t.Renames ν.types (t.relabel a b) := by
  apply (renames_relabel hb).congr
  intro w _
  by_cases hw : w = a
  · rw [hw, Function.update_self, h.new]
  · rw [Function.update_of_ne hw, h.fixed w hw]
    rfl

theorem relabel_renames_of_swapped (h : Swapped b a terms live ν) (hb : b ∉ t.names) :
    (t.relabel a b).Renames ν.types t := by
  apply (relabel_renames hb).congr
  intro w _
  by_cases hw : w = b
  · rw [hw, Function.update_self, h.new]
  · rw [Function.update_of_ne hw, h.fixed w hw]
    rfl

end Ty

namespace Expr

variable {a b : String} {terms live : Bool} {ν : Naming}

/-- The relabelled expression is a renamed one. -/
theorem renamed_relabel (e : Expr) (h : Swapped a b terms live ν)
    (hsafe : e.reuseSafe a live = true) (ht : b ∉ e.typeNames) (hv : b ∉ e.termNames) :
    e.Renamed ν (e.relabel a b terms) := by
  induction e using Expr.induction generalizing ν terms live with
  | lam n x p body ih =>
    obtain ⟨hp, hbody⟩ := not_or.mp (mt List.mem_append.mpr ht)
    obtain ⟨-, hvars⟩ := not_or.mp (mt List.mem_cons.mpr hv)
    have hfree : b ∉ p.freeTypes := by
      cases p with
      | typed t => exact fun hm => hp (Ty.free_subset_names t b hm)
      | dictionary | erased => exact fun hm => nomatch hm
    apply Renamed.lam
    · rintro t rfl
      exact ⟨_, rfl, Ty.renames_of_swapped h hp⟩
    · refine ih (h.lam hfree ?_ ?_) hsafe hbody hvars
      · rintro (hl | hm)
        · simp [hl]
        · simp [hm]
      · intro hterms
        have hterms' : terms = true ∧ x ≠ a := by simpa using hterms
        exact ⟨hterms'.1, hterms'.2.symm⟩
  | tlam n x bounds body ih =>
    obtain ⟨hx, hbody⟩ := not_or.mp (mt List.mem_cons.mpr ht)
    rw [reuseSafe] at hsafe
    rw [relabel]
    split_ifs at hsafe ⊢ with hxa
    · have hout : a ∉ ν.scope := fun hm => by simp [h.live hm] at hsafe
      apply h.rebind hout
      · intro y _
        exact hxa ▸ em (y = x)
      · intro y hy _
        exact h.hidden y hy ▸ hv
    · refine .tlam (h.apart hxa (Ne.symm hx)) (fun y _ hyx => h.types_ne (Ne.symm hx) hyx) ?_
      exact ih (h.tlam hxa (Ne.symm hx) bounds) hsafe hbody hv
  | cond n c y z ihc ihy ihz =>
    simp only [reuseSafe, Bool.and_eq_true, typeNames, termNames, List.mem_append, not_or]
      at hsafe ht hv
    exact .cond (ihc h hsafe.1 ht.1 hv.1) (ihy h hsafe.2.1 ht.2.1 hv.2.1)
      (ihz h hsafe.2.2 ht.2.2 hv.2.2)
  | bin n op l r ihl ihr =>
    simp only [reuseSafe, Bool.and_eq_true, typeNames, termNames, List.mem_append, not_or]
      at hsafe ht hv
    exact .bin (ihl h hsafe.1 ht.1 hv.1) (ihr h hsafe.2 ht.2 hv.2)
  | un n op e ih => exact .un (ih h hsafe ht hv)
  | app n f e ihf ihe =>
    simp only [reuseSafe, Bool.and_eq_true, typeNames, termNames, List.mem_append, not_or]
      at hsafe ht hv
    exact .app (ihf h hsafe.1 ht.1 hv.1) (ihe h hsafe.2 ht.2 hv.2)
  | tapp n f t ih =>
    obtain ⟨hf, htype⟩ := not_or.mp (mt List.mem_append.mpr ht)
    exact .tapp (ih h hsafe hf hv) (Ty.renames_of_swapped h htype)
  | ascribe n e t ih =>
    obtain ⟨he, htype⟩ := not_or.mp (mt List.mem_append.mpr ht)
    exact .ascribe (ih h hsafe he hv) (Ty.renames_of_swapped h htype)
  | proj n e label ih => exact .proj (ih h hsafe ht hv)
  | var n x =>
    rw [relabel]
    split_ifs with hx
    · have hx' : terms = true ∧ x = a := by simpa using hx
      exact .kind (hx'.2 ▸ h.kind hx'.1)
    · exact .var fun hm => hv (List.mem_singleton.mpr (h.hidden x hm).symm)
  | val n v => exact .val
  | list n es ih =>
    rw [relabel, relabelItems_eq]
    have hes := renamedItems_map id (relabel a b terms) es fun e he => ih e he h
      (reuseSafeItems_iff.mp hsafe e he) (fun hm => ht (mem_typeNamesItems.mpr ⟨e, he, hm⟩))
      (fun hm => hv (mem_termNamesItems.mpr ⟨e, he, hm⟩))
    exact .list (by simpa using hes)
  | record n fs ih =>
    rw [relabel, relabelFields_eq]
    have hfs := renamedFields_map id (relabel a b terms) fs fun f hf => ih f hf h
      (reuseSafeFields_iff.mp hsafe f hf) (fun hm => ht (mem_typeNamesFields.mpr ⟨f, hf, hm⟩))
      (fun hm => hv (mem_termNamesFields.mpr ⟨f, hf, hm⟩))
    exact .record (by simpa using hfs)

/-- The expression is a renamed form of the relabelled one. A variable that has the old name stands
for the type variable, or a lambda binds it again. -/
theorem relabel_renamed (e : Expr) (hab : a ≠ b) (h : Swapped b a terms live ν)
    (hterms : a ∈ ν.hidden → terms = true) (hsafe : e.reuseSafe a live = true)
    (ht : b ∉ e.typeNames) (hv : b ∉ e.termNames) : (e.relabel a b terms).Renamed ν e := by
  induction e using Expr.induction generalizing ν terms live with
  | lam n x p body ih =>
    obtain ⟨hp, hbody⟩ := not_or.mp (mt List.mem_append.mpr ht)
    obtain ⟨hx, hvars⟩ := not_or.mp (mt List.mem_cons.mpr hv)
    apply Renamed.lam
    · intro t htyped
      cases p with
      | typed u =>
        obtain rfl : u.relabel a b = t := Param.typed.inj htyped
        exact ⟨u, rfl, Ty.relabel_renames_of_swapped h hp⟩
      | dictionary | erased => cases htyped
    · -- the relabelled parameter has the new name where the parameter had the old one
      have hfree : a ∉ (p.relabel a b).freeTypes ∧
          (b ∈ (p.relabel a b).freeTypes → a ∈ p.freeTypes) := by
        cases p with
        | typed u =>
          have hu : b ∉ u.names := hp
          have hub : b ∉ u.free := fun hm => hu (Ty.free_subset_names u b hm)
          simp [Param.relabel, Param.freeTypes, Ty.mem_free_relabel hu, hab, hub]
        | dictionary | erased => simp [Param.relabel, Param.freeTypes]
      refine ih (h.lam hfree.1 ?_ ?_) ?_ hsafe hbody hvars
      · rintro (hl | hm)
        · simp [hl]
        · simp [hfree.2 hm]
      · intro hterms'
        have hterms'' : terms = true ∧ x ≠ a := by simpa using hterms'
        exact ⟨hterms''.1, hx⟩
      · intro hm
        obtain ⟨hm, hax⟩ := List.mem_filter.mp hm
        have hxa : x ≠ a := Ne.symm (by simpa using hax)
        simp [hterms hm, hxa]
  | tlam n x bounds body ih =>
    obtain ⟨hx, hbody⟩ := not_or.mp (mt List.mem_cons.mpr ht)
    rw [reuseSafe] at hsafe
    rw [relabel]
    split_ifs at hsafe ⊢ with hxa
    · have hout : b ∉ ν.scope := fun hm => by simp [h.live hm] at hsafe
      apply h.rebind hout
      · intro y hy
        exact Or.inr fun he => hbody (he ▸ hy)
      · intro y hy hyx
        exact absurd ((h.hidden y hy).trans hxa.symm) hyx
    · refine .tlam (h.apart (Ne.symm hx) hxa) (fun y _ hyx => h.types_ne hxa hyx) ?_
      refine ih (h.tlam (Ne.symm hx) hxa bounds) ?_ hsafe hbody hv
      intro hm
      obtain ⟨hm, hax⟩ := List.mem_filter.mp hm
      exact hterms ((List.mem_cons.mp hm).resolve_left (by simpa using hax))
  | cond n c y z ihc ihy ihz =>
    simp only [reuseSafe, Bool.and_eq_true, typeNames, termNames, List.mem_append, not_or]
      at hsafe ht hv
    exact .cond (ihc h hterms hsafe.1 ht.1 hv.1) (ihy h hterms hsafe.2.1 ht.2.1 hv.2.1)
      (ihz h hterms hsafe.2.2 ht.2.2 hv.2.2)
  | bin n op l r ihl ihr =>
    simp only [reuseSafe, Bool.and_eq_true, typeNames, termNames, List.mem_append, not_or]
      at hsafe ht hv
    exact .bin (ihl h hterms hsafe.1 ht.1 hv.1) (ihr h hterms hsafe.2 ht.2 hv.2)
  | un n op e ih => exact .un (ih h hterms hsafe ht hv)
  | app n f e ihf ihe =>
    simp only [reuseSafe, Bool.and_eq_true, typeNames, termNames, List.mem_append, not_or]
      at hsafe ht hv
    exact .app (ihf h hterms hsafe.1 ht.1 hv.1) (ihe h hterms hsafe.2 ht.2 hv.2)
  | tapp n f t ih =>
    obtain ⟨hf, htype⟩ := not_or.mp (mt List.mem_append.mpr ht)
    exact .tapp (ih h hterms hsafe hf hv) (Ty.relabel_renames_of_swapped h htype)
  | ascribe n e t ih =>
    obtain ⟨he, htype⟩ := not_or.mp (mt List.mem_append.mpr ht)
    exact .ascribe (ih h hterms hsafe he hv) (Ty.relabel_renames_of_swapped h htype)
  | proj n e label ih => exact .proj (ih h hterms hsafe ht hv)
  | var n x =>
    rw [relabel]
    split_ifs with hx
    · have hx' : terms = true ∧ x = a := by simpa using hx
      exact .kind (h.kind hx'.1)
    · apply Renamed.var
      intro hm
      have hxa : x = a := h.hidden x hm
      exact hx (by simp [hterms (hxa ▸ hm), hxa])
  | val n v => exact .val
  | list n es ih =>
    rw [relabel, relabelItems_eq]
    have hes := renamedItems_map (relabel a b terms) id es fun e he => ih e he h hterms
      (reuseSafeItems_iff.mp hsafe e he) (fun hm => ht (mem_typeNamesItems.mpr ⟨e, he, hm⟩))
      (fun hm => hv (mem_termNamesItems.mpr ⟨e, he, hm⟩))
    exact .list (by simpa using hes)
  | record n fs ih =>
    rw [relabel, relabelFields_eq]
    have hfs := renamedFields_map (relabel a b terms) id fs fun f hf => ih f hf h hterms
      (reuseSafeFields_iff.mp hsafe f hf) (fun hm => ht (mem_typeNamesFields.mpr ⟨f, hf, hm⟩))
      (fun hm => hv (mem_termNamesFields.mpr ⟨f, hf, hm⟩))
    exact .record (by simpa using hfs)

theorem Within.relabel {e : Expr} {k : Nat} {F G : List String} (h : e.Within k F)
    (ht : b ∉ e.typeNames) (hold : OldName k b) (hF : ∀ w ∈ F, w ≠ a → w ∈ G) (hG : b ∈ G) :
    (e.relabel a b terms).Within k G := by
  induction e using Expr.induction generalizing F G terms with
  | lam n x p body ih =>
    obtain ⟨hp, hbody⟩ := not_or.mp (mt List.mem_append.mpr ht)
    refine ⟨?_, ih h.2 hbody hF hG⟩
    cases p with
    | typed t => exact Ty.Within.relabel h.1 hp hold hF hG
    | dictionary | erased => trivial
  | tlam n x bounds body ih =>
    obtain ⟨hx, hbody⟩ := not_or.mp (mt List.mem_cons.mpr ht)
    have hcons : ∀ w ∈ x :: F, w ≠ a → w ∈ x :: G := by
      intro w hw hwa
      rcases List.mem_cons.mp hw with rfl | hw
      · exact List.mem_cons_self
      · exact List.mem_cons_of_mem x (hF w hw hwa)
    rw [Expr.relabel]
    split_ifs with hxa
    · refine ⟨h.1, (within_iff body h.2 _).mpr fun w hw => ?_⟩
      by_cases hwa : w = a
      · rw [hwa, hxa]
        exact List.mem_cons_self
      · exact hcons w ((within_iff body h.2 _).mp h.2 w hw) hwa
    · exact ⟨h.1, ih h.2 hbody hcons (List.mem_cons_of_mem x hG)⟩
  | cond n c y z ihc ihy ihz =>
    simp only [typeNames, List.mem_append, not_or] at ht
    exact ⟨ihc h.1 ht.1 hF hG, ihy h.2.1 ht.2.1 hF hG, ihz h.2.2 ht.2.2 hF hG⟩
  | bin n op l r ihl ihr | app n f e ihl ihr =>
    simp only [typeNames, List.mem_append, not_or] at ht
    exact ⟨ihl h.1 ht.1 hF hG, ihr h.2 ht.2 hF hG⟩
  | un n op e ih => exact ih h ht hF hG
  | tapp n f t ih | ascribe n e t ih =>
    obtain ⟨hf, htype⟩ := not_or.mp (mt List.mem_append.mpr ht)
    exact ⟨ih h.1 hf hF hG, h.2.relabel htype hold hF hG⟩
  | proj n e label ih => exact ih h ht hF hG
  | var | val => trivial
  | list n es ih =>
    rw [Expr.relabel, relabelItems_eq]
    apply withinItems_iff.mpr
    rintro _ he'
    obtain ⟨e, he, rfl⟩ := List.mem_map.mp he'
    exact ih e he (withinItems_iff.mp h e he)
      (fun hm => ht (mem_typeNamesItems.mpr ⟨e, he, hm⟩)) hF hG
  | record n fs ih =>
    rw [Expr.relabel, relabelFields_eq]
    apply withinFields_iff.mpr
    rintro _ hf'
    obtain ⟨f, hf, rfl⟩ := List.mem_map.mp hf'
    exact ih f hf (withinFields_iff.mp h f hf)
      (fun hm => ht (mem_typeNamesFields.mpr ⟨f, hf, hm⟩)) hF hG

/-- Relabelling takes the old name away. -/
theorem not_mem_openTypes_relabel {e : Expr} {k : Nat} {F : List String} (h : e.Within k F)
    (ht : b ∉ e.typeNames) (hold : OldName k b) (hab : a ≠ b) :
    a ∉ (e.relabel a b terms).openTypes := by
  have hwithin : (e.relabel a b terms).Within k (b :: F.filter (· ≠ a)) :=
    h.relabel ht hold (fun w hw hwa => List.mem_cons_of_mem b
      (List.mem_filter.mpr ⟨hw, by simpa using hwa⟩)) List.mem_cons_self
  intro ha
  have hmem := (within_iff _ hwithin _).mp hwithin a ha
  simp [hab] at hmem

end Expr

end TraitCalculus
