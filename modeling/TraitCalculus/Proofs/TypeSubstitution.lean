import Mathlib
import TraitCalculus.Proofs.AlphaEquivalence

/-! Substitution in types is the one of the textbook. `Replaced` states its rules; a binder that
would capture a name gets any name that is not in the way. The substitution that draws names ends
with a result of these rules, also after any number of other substitutions, and all results of
the rules are alpha-equivalent. -/
namespace TraitCalculus

namespace Nameless

mutual

/-- Binds the names `xs` under `i` quantifiers: a free name gets the number of the quantifier that
stands at its place in `xs`. -/
def close (xs : List String) (i : Nat) : Nameless → Nameless
  | bound j => bound j
  | free x => if x ∈ xs then bound (i + xs.idxOf x) else free x
  | all bounds body => all bounds (body.close xs (i + 1))
  | arrow dom cod => arrow (dom.close xs i) (cod.close xs i)
  | app fn arg => app (fn.close xs i) (arg.close xs i)
  | list elem => list (elem.close xs i)
  | emptyList => emptyList
  | record fields => record (closeFields xs i fields)

def closeFields (xs : List String) (i : Nat) :
    List (String × Nameless) → List (String × Nameless)
  | [] => []
  | (label, t) :: fields => (label, t.close xs i) :: closeFields xs i fields

end

-- Every proof below unfolds these, so their equations are made here, once.
attribute [local simp] close in
theorem closeFields_eq (xs : List String) (i : Nat) (fields : List (String × Nameless)) :
    closeFields xs i fields = fields.map fun f => (f.1, f.2.close xs i) :=
  walk_eq_map rfl (fun _ _ => rfl) fields

theorem close_eq_self (t : Nameless) (xs : List String) (i : Nat)
    (h : ∀ x ∈ xs, x ∉ t.freeNames) : t.close xs i = t := by
  induction t using Nameless.induction generalizing i with
  | bound j => rfl
  | free x =>
    have hx : x ∉ xs := fun hm => h x hm (by simp [freeNames])
    rw [close, if_neg hx]
  | all bounds body ih => rw [close, ih (i + 1) h]
  | arrow dom cod ihd ihc | app fn arg ihd ihc =>
    rw [close, ihd i fun x hx hf => h x hx (List.mem_append_left _ hf),
      ihc i fun x hx hf => h x hx (List.mem_append_right _ hf)]
  | list elem ih => rw [close, ih i h]
  | emptyList => rfl
  | record fields ih =>
    rw [close, closeFields_eq]
    congr 1
    calc
      fields.map (fun f => (f.1, f.2.close xs i)) = fields.map id := by
        apply List.map_congr_left
        intro f hf
        rw [ih f hf i fun x hx hxf => h x hx (mem_freeNamesFields.mpr ⟨f, hf, hxf⟩)]
        rfl
      _ = fields := List.map_id fields

theorem subst_eq_self (t : Nameless) (x : String) (new : Nameless) (h : x ∉ t.freeNames) :
    t.subst x new = t := by
  induction t using Nameless.induction with
  | bound j => rfl
  | free y =>
    have hy : y ≠ x := fun he => h (by simp [freeNames, he])
    rw [subst, if_neg hy]
  | all bounds body ih => rw [subst, ih h]
  | arrow dom cod ihd ihc | app fn arg ihd ihc =>
    rw [subst, ihd fun hf => h (List.mem_append_left _ hf),
      ihc fun hf => h (List.mem_append_right _ hf)]
  | list elem ih => rw [subst, ih h]
  | emptyList => rfl
  | record fields ih =>
    rw [subst, substFields_eq]
    congr 1
    calc
      fields.map (fun f => (f.1, f.2.subst x new)) = fields.map id := by
        apply List.map_congr_left
        intro f hf
        rw [ih f hf fun hxf => h (mem_freeNamesFields.mpr ⟨f, hf, hxf⟩)]
        rfl
      _ = fields := List.map_id fields

/-- Binding names commutes with substitution if it binds neither the name that is replaced nor a
name of the new type. -/
theorem close_subst (t : Nameless) {x : String} {new : Nameless} {xs : List String} (i : Nat)
    (hx : x ∉ xs) (hnew : ∀ y ∈ xs, y ∉ new.freeNames) :
    (t.subst x new).close xs i = (t.close xs i).subst x new := by
  induction t using Nameless.induction generalizing i with
  | bound j => rfl
  | free y =>
    by_cases hy : y = x
    · have hyx : y ∉ xs := hy ▸ hx
      rw [close, if_neg hyx, subst, if_pos hy]
      exact close_eq_self new xs i hnew
    · rw [subst, if_neg hy, close]
      split_ifs
      · rfl
      · rw [subst, if_neg hy]
  | all bounds body ih => rw [subst, close, close, subst, ih (i + 1)]
  | arrow dom cod ihd ihc | app fn arg ihd ihc => rw [subst, close, close, subst, ihd i, ihc i]
  | list elem ih => rw [subst, close, close, subst, ih i]
  | emptyList => rfl
  | record fields ih =>
    rw [subst, close, close, subst, substFields_eq, closeFields_eq, closeFields_eq,
      substFields_eq, List.map_map, List.map_map]
    congr 1
    apply List.map_congr_left
    intro f hf
    exact Prod.ext rfl (ih f hf i)

/-- Binding a name under another name gives the same if nothing else has the other name. -/
theorem close_rename (t : Nameless) {y z : String} (i : Nat) (hz : z ∉ t.freeNames) :
    (t.subst y (free z)).close [z] i = t.close [y] i := by
  induction t using Nameless.induction generalizing i with
  | bound j => rfl
  | free w =>
    by_cases hw : w = y
    · simp [subst, close, hw]
    · have hwz : w ≠ z := fun he => hz (by simp [freeNames, he])
      simp [subst, close, hw, hwz]
  | all bounds body ih => rw [subst, close, close, ih (i + 1) hz]
  | arrow dom cod ihd ihc | app fn arg ihd ihc =>
    rw [subst, close, close, ihd i fun hf => hz (List.mem_append_left _ hf),
      ihc i fun hf => hz (List.mem_append_right _ hf)]
  | list elem ih => rw [subst, close, close, ih i hz]
  | emptyList => rfl
  | record fields ih =>
    rw [subst, close, close, substFields_eq, closeFields_eq, closeFields_eq, List.map_map]
    congr 1
    apply List.map_congr_left
    intro f hf
    exact Prod.ext rfl (ih f hf i fun hzf => hz (mem_freeNamesFields.mpr ⟨f, hf, hzf⟩))

/-- The free names after a substitution, exactly. -/
theorem mem_freeNames_subst (t : Nameless) (x : String) (new : Nameless) (y : String) :
    y ∈ (t.subst x new).freeNames ↔
      (y ∈ t.freeNames ∧ y ≠ x) ∨ (x ∈ t.freeNames ∧ y ∈ new.freeNames) := by
  constructor
  · intro hy
    by_cases hx : x ∈ t.freeNames
    · exact (freeNames_subst t x new hy).imp_right fun hn => ⟨hx, hn⟩
    · rw [subst_eq_self t x new hx] at hy
      exact Or.inl ⟨hy, fun he => hx (he ▸ hy)⟩
  · intro hy
    induction t using Nameless.induction with
    | bound j => simp [freeNames] at hy
    | free z =>
      rw [subst]
      split_ifs with hz <;> simp [freeNames] at hy ⊢ <;> grind
    | all bounds body ih => exact ih hy
    | arrow dom cod ihd ihc | app fn arg ihd ihc =>
      simp only [subst, freeNames, List.mem_append] at hy ihd ihc ⊢
      grind
    | list elem ih => exact ih hy
    | emptyList => simp [freeNames] at hy
    | record fields ih =>
      simp only [freeNames, mem_freeNamesFields] at hy
      rw [subst, freeNames, substFields_eq, mem_freeNamesFields]
      rcases hy with ⟨⟨f, hf, hyf⟩, hne⟩ | ⟨⟨f, hf, hxf⟩, hn⟩
      · exact ⟨_, List.mem_map_of_mem hf, ih f hf (Or.inl ⟨hyf, hne⟩)⟩
      · exact ⟨_, List.mem_map_of_mem hf, ih f hf (Or.inr ⟨hxf, hn⟩)⟩

end Nameless

namespace Ty

/-- Quantifiers further out bind what is free inside. -/
theorem nameless_close (t : Ty) (ys xs : List String) :
    t.nameless (ys ++ xs) = (t.nameless ys).close xs ys.length := by
  induction t using Ty.induction generalizing ys with
  | name line x =>
    by_cases hy : x ∈ ys
    · simp [nameless, Nameless.close, hy, List.idxOf_append]
    · by_cases hx : x ∈ xs
      · simp [nameless, Nameless.close, hy, hx, List.idxOf_append, Nat.add_comm]
      · simp [nameless, Nameless.close, hy, hx]
  | all line x bounds body ih =>
    rw [nameless, nameless, Nameless.close, ← List.cons_append, ih]
    rfl
  | arrow line dom cod ihd ihc | app line fn arg ihd ihc =>
    rw [nameless, nameless, Nameless.close, ihd, ihc]
  | list line elem ih => rw [nameless, nameless, Nameless.close, ih]
  | emptyList => rfl
  | record line fields ih =>
    rw [nameless, nameless, Nameless.close, namelessFields_eq, namelessFields_eq,
      Nameless.closeFields_eq, List.map_map]
    congr 1
    apply List.map_congr_left
    intro f hf
    exact Prod.ext rfl (ih f hf ys)

theorem nameless_singleton (t : Ty) (x : String) :
    t.nameless [x] = (t.nameless []).close [x] 0 :=
  nameless_close t [] [x]

/-- The rules of substitution: the last type is the third one with the second one in place of the
name. A binder that would capture a name of the new type is renamed first, to any name that is not
in the way. -/
inductive Replaced : String → Ty → Ty → Ty → Prop
  | here {x : String} {new : Ty} {line : Option Nat} : Replaced x new (name line x) new
  | other {x : String} {new : Ty} {line : Option Nat} {y : String} (hy : y ≠ x) :
      Replaced x new (name line y) (name line y)
  | hidden {x : String} {new : Ty} {line : Option Nat} {bounds : List String} {body : Ty} :
      Replaced x new (all line x bounds body) (all line x bounds body)
  | kept {x : String} {new : Ty} {line : Option Nat} {y : String} {bounds : List String}
      {body body' : Ty} (hy : y ≠ x) (hnew : y ∉ new.free) (h : Replaced x new body body') :
      Replaced x new (all line y bounds body) (all line y bounds body')
  | renamed {x : String} {new : Ty} {line : Option Nat} {y z : String} {bounds : List String}
      {body body' body'' : Ty} (hy : y ≠ x) (hz : z ≠ x) (hnew : z ∉ new.free)
      (hbody : z ∉ body.free) (h : Replaced y (name none z) body body')
      (h' : Replaced x new body' body'') :
      Replaced x new (all line y bounds body) (all line z bounds body'')
  | arrow {x : String} {new : Ty} {line : Option Nat} {dom dom' cod cod' : Ty}
      (hd : Replaced x new dom dom') (hc : Replaced x new cod cod') :
      Replaced x new (arrow line dom cod) (arrow line dom' cod')
  | app {x : String} {new : Ty} {line : Option Nat} {fn fn' arg arg' : Ty}
      (hf : Replaced x new fn fn') (ha : Replaced x new arg arg') :
      Replaced x new (app line fn arg) (app line fn' arg')
  | list {x : String} {new : Ty} {line : Option Nat} {elem elem' : Ty}
      (h : Replaced x new elem elem') : Replaced x new (list line elem) (list line elem')
  | emptyList {x : String} {new : Ty} : Replaced x new emptyList emptyList
  | record {x : String} {new : Ty} {line : Option Nat} {fs gs : List (String × Ty)}
      (hlabels : fs.map (·.1) = gs.map (·.1))
      (h : ∀ p ∈ fs.zip gs, Replaced x new p.1.2 p.2.2) :
      Replaced x new (record line fs) (record line gs)

/-- The rules give substitution on nameless forms, whatever names binders get. -/
theorem Replaced.nameless_eq {x : String} {new t u : Ty} (h : Replaced x new t u) :
    u.nameless [] = (t.nameless []).subst x (new.nameless []) := by
  induction h with
  | here => simp [nameless, Nameless.subst]
  | other hy => simp [nameless, Nameless.subst, hy]
  | @hidden x new line bounds body =>
    -- all occurrences of the name inside are bound
    have hx : x ∉ ((Ty.all line x bounds body).nameless []).freeNames := by
      rw [mem_freeNames_nameless]
      simp [free]
    rw [Nameless.subst_eq_self _ x _ hx]
  | @kept x new line y bounds body body' hy hnew _ ih =>
    have hfree : ∀ w ∈ [y], w ∉ (new.nameless []).freeNames := by
      simpa [← mem_free_iff_nameless] using hnew
    have hx : x ∉ [y] := by simpa using Ne.symm hy
    rw [nameless, nameless, Nameless.subst, nameless_singleton, nameless_singleton, ih,
      Nameless.close_subst _ 0 hx hfree]
  | @renamed x new line y z bounds body body' body'' hy hz hnew hbody _ _ ih ih' =>
    have hfree : ∀ w ∈ [z], w ∉ (new.nameless []).freeNames := by
      simpa [← mem_free_iff_nameless] using hnew
    have hx : x ∉ [z] := by simpa using Ne.symm hz
    have hz' : z ∉ (body.nameless []).freeNames := by
      rwa [← mem_free_iff_nameless]
    have hrename : (body'.nameless []).close [z] 0 = (body.nameless []).close [y] 0 := by
      rw [ih]
      exact Nameless.close_rename _ 0 hz'
    calc
      (Ty.all line z bounds body'').nameless []
          = .all bounds ((body''.nameless []).close [z] 0) := by
            rw [nameless, nameless_singleton]
      _ = .all bounds (((body'.nameless []).close [z] 0).subst x (new.nameless [])) := by
            rw [ih', Nameless.close_subst _ 0 hx hfree]
      _ = .all bounds ((body.nameless [y]).subst x (new.nameless [])) := by
            rw [hrename, nameless_singleton]
      _ = ((Ty.all line y bounds body).nameless []).subst x (new.nameless []) := by
            rw [nameless, Nameless.subst]
  | arrow _ _ ihd ihc | app _ _ ihd ihc => rw [nameless, nameless, Nameless.subst, ihd, ihc]
  | list _ ih => rw [nameless, nameless, Nameless.subst, ih]
  | emptyList => rfl
  | @record x new line fs gs hlabels h ih =>
    rw [nameless, nameless, Nameless.subst, namelessFields_eq, namelessFields_eq,
      Nameless.substFields_eq, List.map_map]
    congr 1
    clear h
    -- fields correspond one by one
    induction fs generalizing gs with
    | nil =>
      obtain rfl : gs = [] := by simpa using hlabels.symm
      rfl
    | cons f fs ihs =>
      cases gs with
      | nil => simp at hlabels
      | cons g gs =>
        obtain ⟨hlabel, hlabels⟩ := List.cons.inj hlabels
        have hhead := ih (f, g) List.mem_cons_self
        have htail := ihs hlabels fun p hp => ih p (List.mem_cons_of_mem _ hp)
        rw [List.map_cons, List.map_cons, htail]
        simp [hhead, hlabel]

mutual

/-- Renames free names. No binder gets another name. -/
def rename (ρ : List (String × String)) : Ty → Ty
  | name line x => substName ρ none line x
  | all line x bounds body => all line x bounds (body.rename (ρ.filter (·.1 ≠ x)))
  | arrow line dom cod => arrow line (dom.rename ρ) (cod.rename ρ)
  | app line fn arg => app line (fn.rename ρ) (arg.rename ρ)
  | list line elem => list line (elem.rename ρ)
  | emptyList => emptyList
  | record line fields => record line (renameFields ρ fields)

def renameFields (ρ : List (String × String)) : List (String × Ty) → List (String × Ty)
  | [] => []
  | (label, t) :: fields => (label, t.rename ρ) :: renameFields ρ fields

end

attribute [local simp] rename in
theorem renameFields_eq (ρ : List (String × String)) (fields : List (String × Ty)) :
    renameFields ρ fields = fields.map fun f => (f.1, f.2.rename ρ) :=
  walk_eq_map rfl (fun _ _ => rfl) fields

/-- Where the name to replace is hidden, substitution renames and draws no name. -/
theorem run_substIn_none (t : Ty) (ρ : List (String × String)) (k : Nat) :
    (t.substIn ρ none).run k = (t.rename ρ, k) := by
  induction t using Ty.induction generalizing ρ k with
  | name line x => rfl
  | all line x bounds body ih =>
    have hrun : ((Ty.all line x bounds body).substIn ρ none).run k =
        (Ty.all line x bounds ((body.substIn (ρ.filter (·.1 ≠ x)) none).run k).1,
          ((body.substIn (ρ.filter (·.1 ≠ x)) none).run k).2) := rfl
    rw [hrun, ih, rename]
  | arrow line dom cod ihd ihc => rw [run_substIn_arrow, ihd, ihc, rename]
  | app line fn arg ihf iha => rw [run_substIn_app, ihf, iha, rename]
  | list line elem ih =>
    have hrun : ((Ty.list line elem).substIn ρ none).run k =
        (Ty.list line ((elem.substIn ρ none).run k).1, ((elem.substIn ρ none).run k).2) := rfl
    rw [hrun, ih, rename]
  | emptyList => rfl
  | record line fields ih =>
    have hfields : (substFields ρ none fields).run k = (renameFields ρ fields, k) := by
      induction fields with
      | nil => rfl
      | cons f fields ihs =>
        rw [run_substFields_cons, ih f List.mem_cons_self,
          ihs fun g hg => ih g (List.mem_cons_of_mem f hg)]
        rfl
    have hrun : ((Ty.record line fields).substIn ρ none).run k =
        (Ty.record line ((substFields ρ none fields).run k).1,
          ((substFields ρ none fields).run k).2) := rfl
    rw [hrun, hfields, rename]

theorem rename_nil (t : Ty) : t.rename [] = t := by
  induction t using Ty.induction with
  | name line x => rfl
  | all line x bounds body ih => rw [rename, List.filter_nil, ih]
  | arrow line dom cod ihd ihc | app line fn arg ihd ihc => rw [rename, ihd, ihc]
  | list line elem ih => rw [rename, ih]
  | emptyList => rfl
  | record line fields ih =>
    rw [rename, renameFields_eq]
    congr 1
    calc
      fields.map (fun f => (f.1, f.2.rename [])) = fields.map id := by
        apply List.map_congr_left
        intro f hf
        exact Prod.ext rfl (ih f hf)
      _ = fields := List.map_id fields

/-- The names of a renamed type are old if those of the type and of the renaming are. -/
theorem names_rename (t : Ty) {ρ : List (String × String)} {k : Nat}
    (ht : ∀ w ∈ t.names, OldName k w) (hρ : ∀ p ∈ ρ, OldName k p.2) :
    ∀ w ∈ (t.rename ρ).names, OldName k w := by
  have h := names_substIn t ρ none k ht hρ (by simp)
  rwa [run_substIn_none] at h

theorem mem_zip_map {α β γ : Type} {as : List α} {f : α → β} {g : α → γ} {p : β × γ}
    (hp : p ∈ (as.map f).zip (as.map g)) : ∃ a ∈ as, p = (f a, g a) := by
  rw [List.zip_map', List.mem_map] at hp
  obtain ⟨a, ha, rfl⟩ := hp
  exact ⟨a, ha, rfl⟩

/-- One more name in a renaming is one more substitution. -/
theorem replaced_rename (t : Ty) {ρ : List (String × String)} {y z : String}
    (hy : ρ.lookup y = none) (hρ : ∀ p ∈ ρ, p.2 ≠ y) (hz : z ∉ t.names) :
    Replaced y (name none z) (t.rename ρ) (t.rename ((y, z) :: ρ)) := by
  induction t using Ty.induction generalizing ρ with
  | name line w =>
    obtain ⟨line', hw⟩ := substName_of_ne ρ none line w (by simp)
    by_cases hwy : w = y
    · -- the name itself: it stands as it was written
      have hleft : (name line w).rename ρ = name line y := by
        simp [rename, substName, hwy, hy]
      have hright : (name line w).rename ((y, z) :: ρ) = name none z := by
        simp [rename, substName, hwy]
      rw [hleft, hright]
      exact .here
    · have hne : renamed ρ w ≠ y := by
        unfold renamed
        cases hl : ρ.lookup w with
        | none => exact hwy
        | some v => exact hρ (w, v) (Assoc.mem_of_lookup hl)
      have hright : (name line w).rename ((y, z) :: ρ) = (name line w).rename ρ := by
        simp only [rename, substName, Assoc.lookup_cons_if, if_neg hwy]
      rw [hright, rename, hw]
      exact .other hne
  | all line w bounds body ih =>
    have hbody : z ∉ body.names := fun hm => hz (List.mem_cons_of_mem w hm)
    have hwz : w ≠ z := fun he => hz (he ▸ List.mem_cons_self)
    rw [rename, rename]
    by_cases hwy : w = y
    · have hfilter : ((y, z) :: ρ).filter (·.1 ≠ w) = ρ.filter (·.1 ≠ w) := by simp [hwy]
      rw [hfilter, hwy]
      exact .hidden
    · have hfilter : ((y, z) :: ρ).filter (·.1 ≠ w) = (y, z) :: ρ.filter (·.1 ≠ w) := by
        simp [Ne.symm hwy]
      have hlookup : (ρ.filter (·.1 ≠ w)).lookup y = none := by
        have h := Assoc.lookup_erase_of_ne ρ (Ne.symm hwy)
        unfold Assoc.erase at h
        rw [h, hy]
      rw [hfilter]
      apply Replaced.kept hwy
      · simpa [free] using hwz
      · exact ih hlookup (fun p hp => hρ p (List.mem_of_mem_filter hp)) hbody
  | arrow line dom cod ihd ihc =>
    exact .arrow (ihd hy hρ fun hm => hz (List.mem_append_left _ hm))
      (ihc hy hρ fun hm => hz (List.mem_append_right _ hm))
  | app line fn arg ihf iha =>
    exact .app (ihf hy hρ fun hm => hz (List.mem_append_left _ hm))
      (iha hy hρ fun hm => hz (List.mem_append_right _ hm))
  | list line elem ih => exact .list (ih hy hρ hz)
  | emptyList => exact .emptyList
  | record line fields ih =>
    rw [rename, rename, renameFields_eq, renameFields_eq]
    apply Replaced.record
    · simp
    · intro p hp
      obtain ⟨f, hf, rfl⟩ := mem_zip_map hp
      exact ih f hf hy hρ fun hm => hz (mem_namesFields.mpr ⟨f, hf, hm⟩)

theorem substName_some (ρ : List (String × String)) (x : String) (new : Ty) (line : Option Nat)
    (w : String) : substName ρ (some (x, new)) line w =
      if renamed ρ w = x then new else substName ρ none line w := by
  unfold substName renamed
  cases ρ.lookup w <;> rfl

/-- On its way, substitution follows the rules on the renamed type. Names were old when it
started, and the type has none of those that binders got. -/
theorem replaced_substIn (t : Ty) {ρ : List (String × String)} {x : String} {new : Ty} {k : Nat}
    (hx : OldName k x) (hnew : ∀ w ∈ new.free, OldName k w) (ht : ∀ w ∈ t.names, OldName k w)
    (hρ : ∀ p ∈ ρ, OldName k p.2 ∧ p.2 ∉ t.names) :
    Replaced x new (t.rename ρ) ((t.substIn ρ (some (x, new))).run k).1 := by
  induction t using Ty.induction generalizing ρ k with
  | name line w =>
    have hrun : (((name line w).substIn ρ (some (x, new))).run k).1 =
        substName ρ (some (x, new)) line w := rfl
    obtain ⟨line', hw⟩ := substName_of_ne ρ none line w (by simp)
    rw [hrun, substName_some, rename, hw]
    split_ifs with hwx
    · rw [hwx]
      exact .here
    · exact .other hwx
  | all line w bounds body ih =>
    have hbody : ∀ v ∈ body.names, OldName k v := fun v hv => ht v (List.mem_cons_of_mem w hv)
    have hρ' : ∀ p ∈ ρ.filter (·.1 ≠ w), OldName k p.2 ∧ p.2 ∉ body.names := by
      intro p hp
      obtain ⟨hold, hout⟩ := hρ p (List.mem_of_mem_filter hp)
      exact ⟨hold, fun hm => hout (List.mem_cons_of_mem w hm)⟩
    rw [rename]
    by_cases hwx : w = x
    · -- the binder hides the name: inside, only the renaming goes on
      have hrun : ((Ty.all line w bounds body).substIn ρ (some (x, new))).run k =
          (Ty.all line w bounds (body.rename (ρ.filter (·.1 ≠ w))), k) := by
        have hnone := run_substIn_none (Ty.all line w bounds body) ρ k
        rw [rename] at hnone
        rw [← hnone]
        simp only [substIn, if_pos hwx]
      rw [hrun, hwx]
      exact .hidden
    · by_cases hwn : w ∈ new.free
      · -- the binder gets the next fresh name, and the body is renamed first
        have hrun : (((Ty.all line w bounds body).substIn ρ (some (x, new))).run k).1 =
            Ty.all line (freshName w (k + 1)) bounds
              ((body.substIn ((w, freshName w (k + 1)) :: ρ.filter (·.1 ≠ w))
                (some (x, new))).run (k + 1)).1 := by
          simp only [substIn, if_neg hwx, if_pos hwn]
          rfl
        have hfresh : freshName w (k + 1) ∉ body.names := fun hm => (hbody _ hm).ne_freshName w rfl
        have hrenamed : freshName w (k + 1) ∉ (body.rename (ρ.filter (·.1 ≠ w))).free := by
          intro hm
          have hold := names_rename body hbody (fun p hp => (hρ' p hp).1) _
            (free_subset_names _ _ hm)
          exact hold.ne_freshName w rfl
        have hlookup : (ρ.filter (·.1 ≠ w)).lookup w = none := Assoc.lookup_erase_self w ρ
        have htargets : ∀ p ∈ ρ.filter (·.1 ≠ w), p.2 ≠ w := fun p hp he =>
          (hρ p (List.mem_of_mem_filter hp)).2 (he ▸ List.mem_cons_self)
        rw [hrun]
        apply Replaced.renamed hwx (hx.ne_freshName w).symm
          (fun hm => (hnew _ hm).ne_freshName w rfl) hrenamed
          (replaced_rename body hlookup htargets hfresh)
        have hk := Nat.le_succ k
        exact ih (hx.mono hk) (fun v hv => (hnew v hv).mono hk) (fun v hv => (hbody v hv).mono hk)
          (List.forall_mem_cons.mpr ⟨⟨oldName_freshName w (k + 1), hfresh⟩,
            fun p hp => ⟨(hρ' p hp).1.mono hk, (hρ' p hp).2⟩⟩)
      · have hrun : (((Ty.all line w bounds body).substIn ρ (some (x, new))).run k).1 =
            Ty.all line w bounds
              ((body.substIn (ρ.filter (·.1 ≠ w)) (some (x, new))).run k).1 := by
          simp only [substIn, if_neg hwx, if_neg hwn]
          rfl
        rw [hrun]
        exact .kept hwx hwn (ih hx hnew hbody hρ')
  | arrow line dom cod ihd ihc =>
    have hk := substIn_drawn_le dom ρ (some (x, new)) k
    rw [run_substIn_arrow]
    apply Replaced.arrow
    · exact ihd hx hnew (fun v hv => ht v (List.mem_append_left _ hv)) fun p hp =>
        ⟨(hρ p hp).1, fun hm => (hρ p hp).2 (List.mem_append_left _ hm)⟩
    · exact ihc (hx.mono hk) (fun v hv => (hnew v hv).mono hk)
        (fun v hv => (ht v (List.mem_append_right _ hv)).mono hk) fun p hp =>
        ⟨(hρ p hp).1.mono hk, fun hm => (hρ p hp).2 (List.mem_append_right _ hm)⟩
  | app line fn arg ihf iha =>
    have hk := substIn_drawn_le fn ρ (some (x, new)) k
    rw [run_substIn_app]
    apply Replaced.app
    · exact ihf hx hnew (fun v hv => ht v (List.mem_append_left _ hv)) fun p hp =>
        ⟨(hρ p hp).1, fun hm => (hρ p hp).2 (List.mem_append_left _ hm)⟩
    · exact iha (hx.mono hk) (fun v hv => (hnew v hv).mono hk)
        (fun v hv => (ht v (List.mem_append_right _ hv)).mono hk) fun p hp =>
        ⟨(hρ p hp).1.mono hk, fun hm => (hρ p hp).2 (List.mem_append_right _ hm)⟩
  | list line elem ih => exact .list (ih hx hnew ht hρ)
  | emptyList => exact .emptyList
  | record line fields ih =>
    have hrun : (((Ty.record line fields).substIn ρ (some (x, new))).run k).1 =
        Ty.record line ((substFields ρ (some (x, new)) fields).run k).1 := rfl
    rw [hrun, rename, renameFields_eq]
    -- fields come in order, each at the counter that the one before leaves
    have hfields : ∀ f ∈ fields, (∀ v ∈ f.2.names, OldName k v) ∧ ∀ p ∈ ρ, p.2 ∉ f.2.names :=
      fun f hf => ⟨fun v hv => ht v (mem_namesFields.mpr ⟨f, hf, hv⟩),
        fun p hp hm => (hρ p hp).2 (mem_namesFields.mpr ⟨f, hf, hm⟩)⟩
    have hold : ∀ p ∈ ρ, OldName k p.2 := fun p hp => (hρ p hp).1
    clear ht hρ hrun
    suffices hzip : fields.map (·.1) = ((substFields ρ (some (x, new)) fields).run k).1.map (·.1) ∧
        ∀ p ∈ (fields.map fun f => (f.1, f.2.rename ρ)).zip
          ((substFields ρ (some (x, new)) fields).run k).1, Replaced x new p.1.2 p.2.2 by
      apply Replaced.record _ hzip.2
      rw [← hzip.1, List.map_map]
      rfl
    induction fields generalizing k with
    | nil => exact ⟨rfl, by simp⟩
    | cons f fields ihs =>
      have hk := substIn_drawn_le f.2 ρ (some (x, new)) k
      obtain ⟨hf, hfs⟩ := List.forall_mem_cons.mp hfields
      have hhead := ih f List.mem_cons_self hx hnew hf.1 fun p hp => ⟨hold p hp, hf.2 p hp⟩
      obtain ⟨hlabels, htail⟩ := ihs (fun g hg => ih g (List.mem_cons_of_mem f hg))
        (hx.mono hk) (fun v hv => (hnew v hv).mono hk)
        (fun g hg => ⟨fun v hv => ((hfs g hg).1 v hv).mono hk, (hfs g hg).2⟩)
        (fun p hp => (hold p hp).mono hk)
      rw [run_substFields_cons]
      constructor
      · rw [List.map_cons, List.map_cons, hlabels]
      · rw [List.map_cons, List.zip_cons_cons]
        exact List.forall_mem_cons.mpr ⟨hhead, htail⟩

/-- Substitution ends with a result of the rules if all names are old. -/
theorem replaced_subst (t : Ty) {x : String} {new : Ty} {k : Nat} (hx : OldName k x)
    (hnew : ∀ w ∈ new.free, OldName k w) (ht : ∀ w ∈ t.names, OldName k w) :
    Replaced x new t ((t.subst x new).run k).1 := by
  have h : Replaced x new (t.rename []) ((t.subst x new).run k).1 :=
    replaced_substIn t hx hnew ht (by simp)
  rwa [rename_nil] at h

/-- One substitution after another, with the counter running on from `k₀` to `k`. Each replaces a
name by a type whose names were in the program text or have been drawn before. -/
inductive Rewritten (k₀ : Nat) (t₀ : Ty) : Nat → Ty → Prop
  | start : Rewritten k₀ t₀ k₀ t₀
  | step {k : Nat} {t : Ty} {x : String} {new : Ty} (h : Rewritten k₀ t₀ k t) (hx : OldName k x)
      (hnew : ∀ w ∈ new.names, OldName k w) :
      Rewritten k₀ t₀ ((t.subst x new).run k).2 ((t.subst x new).run k).1

/-- Names stay old all along. -/
theorem Rewritten.old {k₀ k : Nat} {t₀ t : Ty} (h : Rewritten k₀ t₀ k t)
    (h₀ : ∀ w ∈ t₀.names, OldName k₀ w) : ∀ w ∈ t.names, OldName k w := by
  induction h with
  | start => exact h₀
  | step _ hx hnew ih =>
    apply names_substIn _ [] _ _ ih (by simp)
    intro y new' he
    obtain ⟨-, rfl⟩ := Prod.mk.inj (Option.some.inj he)
    exact hnew

/-- Capture-avoiding substitution. After any sequence of substitutions, the next one ends with a
result of the textbook's rules; every other result of these rules is alpha-equivalent to it; and
its free names are those of the type without the replaced one, and those of the new type exactly if
the replaced name was free. -/
theorem subst_captureAvoiding {k₀ k : Nat} {t₀ t : Ty} (h : Rewritten k₀ t₀ k t)
    (h₀ : ∀ w ∈ t₀.names, OldName k₀ w) {x : String} {new : Ty} (hx : OldName k x)
    (hnew : ∀ w ∈ new.names, OldName k w) :
    Replaced x new t ((t.subst x new).run k).1 ∧
      (∀ u, Replaced x new t u → ((t.subst x new).run k).1.AlphaEq u) ∧
      ∀ y, y ∈ ((t.subst x new).run k).1.free ↔
        (y ∈ t.free ∧ y ≠ x) ∨ (x ∈ t.free ∧ y ∈ new.free) := by
  have hfree : ∀ w ∈ new.free, OldName k w := fun w hw => hnew w (free_subset_names new w hw)
  have hrules := replaced_subst t hx hfree (h.old h₀)
  refine ⟨hrules, ?_, ?_⟩
  · intro u hu
    exact hrules.nameless_eq.trans hu.nameless_eq.symm
  · intro y
    rw [mem_free_iff_nameless, hrules.nameless_eq, Nameless.mem_freeNames_subst,
      ← mem_free_iff_nameless, ← mem_free_iff_nameless, ← mem_free_iff_nameless]

/-- `forall b. a -> b`, in which `b` for `a` would be captured. -/
def capturing : Ty := all none "b" [] (arrow none (name none "a") (name none "b"))

/-- The binder is renamed to `b$1` first. Then a type with this very name takes the place of `b`,
and the binder is renamed once more. -/
theorem subst_captureAvoiding_twice :
    ∃ t, Rewritten 0 capturing 1 t ∧ t.names = ["b$1", "b", "b$1"] ∧
      Replaced "b" (list none (name none "b$1")) t
        ((t.subst "b" (list none (name none "b$1"))).run 1).1 ∧
      (∀ u, Replaced "b" (list none (name none "b$1")) t u →
        ((t.subst "b" (list none (name none "b$1"))).run 1).1.AlphaEq u) ∧
      ∀ y, y ∈ ((t.subst "b" (list none (name none "b$1"))).run 1).1.free ↔
        (y ∈ t.free ∧ y ≠ "b") ∨ ("b" ∈ t.free ∧ y ∈ (list none (name none "b$1")).free) := by
  have hsource : ∀ w ∈ capturing.names, OldName 0 w := by
    have hmark : ∀ w ∈ capturing.names, '$' ∉ w.toList := by decide
    exact fun w hw => SourceName.old (hmark w hw) 0
  have hb : ∀ k, OldName k "b" := fun k => SourceName.old (by unfold SourceName; decide) k
  have ha : OldName 0 "a" := SourceName.old (by unfold SourceName; decide) 0
  have hb1 : OldName 1 "b$1" := oldName_freshName "b" 1
  have hnew : ∀ w ∈ (name none "b").names, OldName 0 w := List.forall_mem_singleton.mpr (hb 0)
  have hstep : Rewritten 0 capturing 1 ((capturing.subst "a" (name none "b")).run 0).1 :=
    Rewritten.start.step ha hnew
  exact ⟨_, hstep, by decide +kernel,
    subst_captureAvoiding hstep hsource (hb 1) (List.forall_mem_singleton.mpr hb1)⟩

end Ty

end TraitCalculus
