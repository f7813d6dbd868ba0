import Mathlib
import TraitCalculus.Proofs.NamelessExpansion
import TraitCalculus.Proofs.NamelessRenaming

/-! Types at run time, when each type variable stands for a closed type. To fill in a type is to
put these closed types in and the fields of records in the order of their labels. Trait bounds
stay, since they tell which dictionaries a value takes: types that count as the same may have
different bounds, and only types that agree on them are equal when filled in. -/
namespace TraitCalculus

namespace Nameless

mutual

/-- For each free name what `δ` says, and all fields in the order of their labels. -/
@[simp] def fill (δ : String → Nameless) : Nameless → Nameless
  | bound i => bound i
  | free x => δ x
  | all bounds body => all bounds (body.fill δ)
  | arrow dom cod => arrow (dom.fill δ) (cod.fill δ)
  | app fn arg => app (fn.fill δ) (arg.fill δ)
  | list elem => list (elem.fill δ)
  | emptyList => emptyList
  | record fields => record (Ty.sortByLabel (fillFields δ fields))

@[simp] def fillFields (δ : String → Nameless) : List (String × Nameless) → List (String × Nameless)
  | [] => []
  | (label, t) :: fields => (label, t.fill δ) :: fillFields δ fields

end

mutual

@[simp] def beq : Nameless → Nameless → Bool
  | bound i, bound j => i = j
  | free x, free y => x = y
  | all bounds s, all bounds' t => bounds = bounds' && s.beq t
  | arrow s t, arrow s' t' => s.beq s' && t.beq t'
  | app s t, app s' t' => s.beq s' && t.beq t'
  | list s, list t => s.beq t
  | emptyList, emptyList => true
  | record fs, record gs => beqFields fs gs
  | _, _ => false

@[simp] def beqFields : List (String × Nameless) → List (String × Nameless) → Bool
  | [], [] => true
  | (label, s) :: fs, (label', t) :: gs => label = label' && (s.beq t && beqFields fs gs)
  | _, _ => false

end

theorem beq_iff (s t : Nameless) : s.beq t = true ↔ s = t := by
  induction s using Nameless.induction generalizing t with
  | bound i | free x | emptyList => cases t <;> simp
  | all bounds body ih => cases t <;> simp [ih]
  | arrow dom cod ihd ihc => cases t <;> simp [ihd, ihc]
  | app fn arg ihf iha => cases t <;> simp [ihf, iha]
  | list elem ih => cases t <;> simp [ih]
  | record fs ih =>
    have hfields (gs : List (String × Nameless)) : beqFields fs gs = true ↔ fs = gs := by
      induction fs generalizing gs with
      | nil => cases gs <;> simp
      | cons f fs ihs =>
        obtain ⟨hf, hfs⟩ := List.forall_mem_cons.mp ih
        cases gs with
        | nil => simp
        | cons g gs =>
          simp [hf, ihs hfs, Prod.ext_iff, and_assoc]
    cases t <;> simp [hfields]

instance : DecidableEq Nameless := fun s t => decidable_of_iff _ (beq_iff s t)

theorem fillFields_eq (δ : String → Nameless) (fields : List (String × Nameless)) :
    fillFields δ fields = fields.map fun f => (f.1, f.2.fill δ) :=
  walk_eq_map rfl (fun _ _ => rfl) fields

/-- Only the free names matter. -/
theorem fill_congr (t : Nameless) {δ δ' : String → Nameless}
    (h : ∀ x ∈ t.freeNames, δ x = δ' x) : t.fill δ = t.fill δ' := by
  induction t using Nameless.induction with
  | bound i => rfl
  | free x => exact h x (by simp [freeNames])
  | all bounds body ih => rw [fill, fill, ih h]
  | arrow dom cod ihd ihc | app fn arg ihd ihc =>
    obtain ⟨hd, hc⟩ := List.forall_mem_append.mp h
    rw [fill, fill, ihd hd, ihc hc]
  | list elem ih => rw [fill, fill, ih h]
  | emptyList => rfl
  | record fields ih =>
    rw [fill, fill, fillFields_eq, fillFields_eq]
    congr 2
    apply List.map_congr_left
    intro f hf
    rw [ih f hf fun x hx => h x (mem_freeNamesFields.mpr ⟨f, hf, hx⟩)]

/-- Substitution is a change of what a name stands for. -/
theorem fill_subst (t : Nameless) (x : String) (new : Nameless) (δ : String → Nameless) :
    (t.subst x new).fill δ = t.fill (Function.update δ x (new.fill δ)) := by
  induction t using Nameless.induction with
  | bound i => rfl
  | free y =>
    rw [subst]
    by_cases hy : y = x
    · rw [if_pos hy, fill, hy, Function.update_self]
    · rw [if_neg hy, fill, fill, Function.update_of_ne hy]
  | all bounds body ih | list elem ih => rw [subst, fill, fill, ih]
  | arrow dom cod ihd ihc | app fn arg ihd ihc => rw [subst, fill, fill, ihd, ihc]
  | emptyList => rfl
  | record fields ih =>
    rw [subst, fill, fill, substFields_eq, fillFields_eq, fillFields_eq, List.map_map]
    congr 2
    apply List.map_congr_left
    intro f hf
    exact congrArg _ (ih f hf)

theorem sortByLabel_sortByLabel {α : Type} (fs : List (String × α)) :
    Ty.sortByLabel (Ty.sortByLabel fs) = Ty.sortByLabel fs := by
  have : Std.Total (@Ty.byLabel α) := ⟨fun f g => le_total f.1 g.1⟩
  have : IsTrans _ (@Ty.byLabel α) := ⟨fun f g h => le_trans⟩
  exact (List.pairwise_insertionSort Ty.byLabel fs).insertionSort_eq

/-- To order the fields first makes no difference. -/
theorem fill_fill_free (t : Nameless) (δ : String → Nameless) :
    (t.fill free).fill δ = t.fill δ := by
  induction t using Nameless.induction with
  | bound | free | emptyList => rfl
  | all bounds body ih => rw [fill, fill, fill, ih]
  | arrow dom cod ihd ihc => rw [fill, fill, fill, ihd, ihc]
  | app fn arg ihf iha => rw [fill, fill, fill, ihf, iha]
  | list elem ih => rw [fill, fill, fill, ih]
  | record fields ih =>
    rw [fill, fill, fill, fillFields_eq, fillFields_eq, fillFields_eq, sortByLabel_map (fill δ),
      sortByLabel_sortByLabel, ← sortByLabel_map (fill δ), List.map_map]
    congr 2
    apply List.map_congr_left
    intro f hf
    exact congrArg _ (ih f hf)

theorem Below.inst_eq {t : Nameless} {i : Nat} (h : t.Below i) (new : Nameless) :
    t.inst new i = t := by
  induction t using Nameless.induction generalizing i with
  | bound j => exact if_neg (Nat.ne_of_lt h)
  | free x => rfl
  | all bounds body ih | list elem ih => rw [inst, ih h]
  | arrow dom cod ihd ihc | app fn arg ihd ihc => rw [inst, ihd h.1, ihc h.2]
  | emptyList => rfl
  | record fields ih =>
    rw [inst, instFields_eq]
    congr 1
    apply (List.map_congr_left fun f hf => ?_).trans (List.map_id fields)
    rw [ih f hf (belowFields_iff.mp h f hf)]
    rfl

theorem Below.fill {t : Nameless} {i : Nat} (h : t.Below i) {δ : String → Nameless}
    (hδ : ∀ x, (δ x).Below 0) : (t.fill δ).Below i := by
  induction t using Nameless.induction generalizing i with
  | bound j => exact h
  | free x => exact (hδ x).mono (Nat.zero_le i)
  | all bounds body ih => exact ih h
  | arrow dom cod ihd ihc | app fn arg ihd ihc => exact ⟨ihd h.1, ihc h.2⟩
  | list elem ih => exact ih h
  | emptyList => trivial
  | record fields ih =>
    rw [Nameless.fill, fillFields_eq]
    apply belowFields_iff.mpr
    intro g hg
    obtain ⟨f, hf, rfl⟩ := List.mem_map.mp ((List.perm_insertionSort _ _).mem_iff.mp hg)
    exact ih f hf (belowFields_iff.mp h f hf)

/-- The type of a function that takes a dictionary at the type `S` for each of the traits. -/
def taking (traits : List String) (S T : Nameless) : Nameless :=
  traits.foldr (fun trait T => arrow (app (free trait) S) T) T

end Nameless

namespace Ty

/-- A type at run time, if its free names stand for what `δ` says. -/
def filled (δ : String → Nameless) (t : Ty) : Nameless := (t.nameless []).fill δ

/-- The types are equal but for the order of fields and the names of bound variables. -/
def agrees (s t : Ty) : Bool := s.filled .free = t.filled .free

/-- No quantifier of the type has bounds. -/
def unbounded (t : Ty) : Bool := (t.nameless []).plain = t.filled .free

section

variable {s t u : Ty} {δ δ' : String → Nameless}

theorem filled_congr (h : ∀ x ∈ t.free, δ x = δ' x) : t.filled δ = t.filled δ' :=
  Nameless.fill_congr _ fun x hx => h x ((mem_free_iff_nameless t x).mpr hx)

theorem filled_agrees (h : s.agrees t = true) (δ : String → Nameless) :
    s.filled δ = t.filled δ := by
  have hfree : s.filled .free = t.filled .free := of_decide_eq_true h
  calc
    s.filled δ = (s.filled .free).fill δ := (Nameless.fill_fill_free _ δ).symm
    _ = (t.filled .free).fill δ := by rw [hfree]
    _ = t.filled δ := Nameless.fill_fill_free _ δ

/-- Types that count as the same agree if neither has bounds. -/
theorem agrees_of_same (h : s.same t = true) (hs : s.unbounded = true) (ht : t.unbounded = true) :
    s.agrees t = true := by
  have hplain : (s.nameless []).plain = (t.nameless []).plain := alphaSame_of_same h
  rw [of_decide_eq_true hs, of_decide_eq_true ht] at hplain
  exact decide_eq_true hplain

theorem below_filled (t : Ty) (hδ : ∀ x, (δ x).Below 0) : (t.filled δ).Below 0 :=
  (below_nameless t []).fill hδ

theorem filled_record (line : Option Nat) (fields : List (String × Ty)) :
    (record line fields).filled δ =
      .record (sortByLabel (fields.map fun f => (f.1, f.2.filled δ))) := by
  rw [filled, nameless, Nameless.fill, Nameless.fillFields_eq, namelessFields_eq, List.map_map]
  rfl

/-- An instance of a quantified type. -/
theorem filled_instance {body : Ty} {x : String}
    (h : u.nameless [] = (body.nameless []).subst x (t.nameless [])) :
    u.filled δ = body.filled (Function.update δ x (t.filled δ)) := by
  rw [filled, h, Nameless.fill_subst]
  rfl

end

/-- What a quantified type is at `S`, from its nameless form: its variable stands for `S`. -/
theorem inst_fill_nameless (t : Ty) (ys : List String) (x : String) {S : Nameless}
    {δ : String → Nameless} (hδ : ∀ y, (δ y).Below 0) :
    ((t.nameless (ys ++ [x])).fill δ).inst S ys.length =
      (t.nameless ys).fill (Function.update δ x S) := by
  induction t using Ty.induction generalizing ys with
  | name line y =>
    by_cases hy : y ∈ ys
    · have hne : ys.idxOf y ≠ ys.length := (List.idxOf_lt_length_of_mem hy).ne
      simp [nameless, Nameless.inst, Nameless.fill, hy, List.idxOf_append, hne]
    · by_cases hx : y = x
      · simp [nameless, Nameless.inst, Nameless.fill, hx, hx ▸ hy, List.idxOf_append]
      · have hclosed : (δ y).inst S ys.length = δ y :=
          ((hδ y).mono (Nat.zero_le _)).inst_eq S
        simp [nameless, Nameless.fill, hx, hy, hclosed]
  | all line y bounds body ih =>
    rw [nameless, nameless, Nameless.fill, Nameless.inst, Nameless.fill, ← List.cons_append, ← ih]
    rfl
  | arrow line dom cod ihd ihc | app line fn arg ihd ihc =>
    rw [nameless, nameless, Nameless.fill, Nameless.inst, Nameless.fill, ihd, ihc]
  | list line elem ih =>
    rw [nameless, nameless, Nameless.fill, Nameless.inst, Nameless.fill, ih]
  | emptyList => rfl
  | record line fields ih =>
    rw [nameless, nameless, Nameless.fill, Nameless.inst, Nameless.fill, namelessFields_eq,
      namelessFields_eq, Nameless.fillFields_eq, Nameless.fillFields_eq, Nameless.instFields_eq,
      ← Nameless.sortByLabel_map (Nameless.inst · S ys.length), List.map_map, List.map_map,
      List.map_map]
    congr 2
    apply List.map_congr_left
    intro g hg
    exact Prod.ext rfl (ih g hg ys)

end Ty

end TraitCalculus
