import Mathlib
import TraitCalculus.Assoc
import TraitCalculus.Proofs.Walks
import TraitCalculus.Ty.Unify

/-! Types that count as the same. Each type has a sorted form, without lines and trait bounds and
with the fields of every record in the order of their labels; two types count as the same exactly
if their sorted forms are equal. -/
namespace TraitCalculus.Ty

section Fields

variable {α : Type}

/-- Fields by label. -/
def byLabel (f g : String × α) : Prop := f.1 ≤ g.1

instance : DecidableRel (@byLabel α) := fun f g => inferInstanceAs (Decidable (f.1 ≤ g.1))

/-- Fields in the order of their labels; those of one label keep their order. -/
def sortByLabel (fs : List (String × α)) : List (String × α) := fs.insertionSort byLabel

theorem lookup_orderedInsert_self (f : String × α) (fs : List (String × α)) :
    (fs.orderedInsert byLabel f).lookup f.1 = some f.2 := by
  induction fs with
  | nil => rw [List.orderedInsert_nil, Assoc.lookup_cons_if, if_pos rfl]
  | cons g fs ih =>
    rw [List.orderedInsert_cons]
    split_ifs with h
    · rw [Assoc.lookup_cons_if, if_pos rfl]
    · have hne : f.1 ≠ g.1 := fun he => h (le_of_eq he)
      rw [Assoc.lookup_cons_if, if_neg hne, ih]

theorem eraseP_orderedInsert_self (f : String × α) (fs : List (String × α)) :
    (fs.orderedInsert byLabel f).eraseP (·.1 = f.1) = fs := by
  induction fs with
  | nil => simp
  | cons g fs ih =>
    rw [List.orderedInsert_cons]
    split_ifs with h
    · simp
    · have hne : g.1 ≠ f.1 := fun he => h (le_of_eq he.symm)
      rw [List.eraseP_cons_of_neg (by simpa using hne), ih]

/-- Fields of different labels can be inserted in any order. -/
theorem orderedInsert_comm {f g : String × α} (hfg : f.1 ≠ g.1) (fs : List (String × α)) :
    (fs.orderedInsert byLabel g).orderedInsert byLabel f =
      (fs.orderedInsert byLabel f).orderedInsert byLabel g := by
  induction fs with
  | nil | cons e fs ih => grind [byLabel]

/-- Sorting puts the first field of a label, wherever it stands, into the rest. -/
theorem sortByLabel_of_lookup {gs : List (String × α)} {label : String} {a : α}
    (h : gs.lookup label = some a) :
    sortByLabel gs =
      (sortByLabel (gs.eraseP (·.1 = label))).orderedInsert byLabel (label, a) := by
  induction gs with
  | nil => cases h
  | cons g gs ih =>
    rw [Assoc.lookup_cons_if] at h
    split_ifs at h with hg
    · obtain rfl : g.2 = a := Option.some.inj h
      rw [List.eraseP_cons_of_pos (by simpa using hg.symm), hg]
      rfl
    · rw [List.eraseP_cons_of_neg (by simpa using Ne.symm hg)]
      have hsort (e : String × α) (es : List (String × α)) :
          sortByLabel (e :: es) = (sortByLabel es).orderedInsert byLabel e := rfl
      rw [hsort, hsort, ih h]
      exact orderedInsert_comm (Ne.symm hg) _

/-- Sorting is stable: what is found first under a label stays first. -/
theorem lookup_sortByLabel (gs : List (String × α)) (label : String) :
    (sortByLabel gs).lookup label = gs.lookup label := by
  cases h : gs.lookup label with
  | none =>
    rw [List.lookup_eq_none_iff] at h ⊢
    intro g hg
    exact h g ((List.perm_insertionSort byLabel gs).mem_iff.mp hg)
  | some a =>
    rw [sortByLabel_of_lookup h]
    exact lookup_orderedInsert_self (label, a) _

end Fields

mutual

/-- The type without lines and trait bounds, with all fields in the order of their labels. -/
def sorted : Ty → Ty
  | name _ x => name none x
  | all _ x _ body => all none x [] body.sorted
  | arrow _ dom cod => arrow none dom.sorted cod.sorted
  | app _ fn arg => app none fn.sorted arg.sorted
  | list _ elem => list none elem.sorted
  | emptyList => emptyList
  | record _ fields => record none (sortByLabel (sortedFields fields))

/-- The sorted forms of fields, in their places. -/
def sortedFields : List (String × Ty) → List (String × Ty)
  | [] => []
  | (label, t) :: fields => (label, t.sorted) :: sortedFields fields

end

theorem sortedFields_eq (fields : List (String × Ty)) :
    sortedFields fields = fields.map fun f => (f.1, f.2.sorted) :=
  walk_eq_map rfl (fun _ _ => rfl) fields

theorem sortedFields_eraseP (fields : List (String × Ty)) (label : String) :
    sortedFields (fields.eraseP (·.1 = label)) =
      (sortedFields fields).eraseP (·.1 = label) := by
  rw [sortedFields_eq, sortedFields_eq, List.eraseP_map]
  rfl

/-- Records: fields are matched one by one, each with the first of its label on the other side. -/
theorem sameFields_iff {fs : List (String × Ty)}
    (ih : ∀ f ∈ fs, ∀ t, f.2.same t = true ↔ f.2.sorted = t.sorted) (gs : List (String × Ty)) :
    sameFields fs gs = true ↔
      sortByLabel (sortedFields fs) = sortByLabel (sortedFields gs) := by
  induction fs generalizing gs with
  | nil =>
    rw [sameFields, List.isEmpty_iff]
    constructor
    · rintro rfl
      rfl
    · intro h
      have hlen := congrArg List.length h
      rw [sortByLabel, sortByLabel, List.length_insertionSort, List.length_insertionSort,
        sortedFields_eq gs, List.length_map] at hlen
      exact List.length_eq_zero_iff.mp hlen.symm
  | cons f fs ihs =>
    obtain ⟨label, t⟩ := f
    have hsort : sortByLabel (sortedFields ((label, t) :: fs)) =
        (sortByLabel (sortedFields fs)).orderedInsert byLabel (label, t.sorted) := rfl
    have hlookup : (sortedFields gs).lookup label = (gs.lookup label).map sorted := by
      rw [sortedFields_eq, Assoc.lookup_map]
    rw [sameFields, hsort]
    cases hl : gs.lookup label with
    | none =>
      rw [hl, Option.map_none] at hlookup
      constructor
      · intro h
        cases h
      · intro h
        -- the label would have to be on the other side too
        have hnone := (lookup_sortByLabel _ label).trans hlookup
        rw [← h] at hnone
        have hsome := lookup_orderedInsert_self (label, t.sorted) (sortByLabel (sortedFields fs))
        rw [hnone] at hsome
        cases hsome
    | some u =>
      rw [hl, Option.map_some] at hlookup
      rw [sortByLabel_of_lookup hlookup, ← sortedFields_eraseP, Bool.and_eq_true,
        ih (label, t) List.mem_cons_self u,
        ihs (fun g hg => ih g (List.mem_cons_of_mem _ hg))]
      constructor
      · rintro ⟨htu, hrest⟩
        have htu' : t.sorted = u.sorted := htu
        rw [htu', hrest]
      · intro h
        have hvalue := congrArg (List.lookup label) h
        have hrest := congrArg (List.eraseP (·.1 = label)) h
        rw [lookup_orderedInsert_self (label, t.sorted),
          lookup_orderedInsert_self (label, u.sorted)] at hvalue
        rw [eraseP_orderedInsert_self (label, t.sorted),
          eraseP_orderedInsert_self (label, u.sorted)] at hrest
        exact ⟨Option.some.inj hvalue, hrest⟩

/-- Types count as the same exactly if their sorted forms are equal. -/
theorem same_iff_sorted (s t : Ty) : s.same t = true ↔ s.sorted = t.sorted := by
  induction s using Ty.induction generalizing t with
  | name line x => cases t <;> simp [same, sorted]
  | all line x bounds body ih | list line elem ih => cases t <;> simp [same, sorted, ih]
  | arrow line dom cod ihd ihc | app line fn arg ihd ihc =>
    cases t <;> simp [same, sorted, ihd, ihc]
  | emptyList => cases t <;> simp [same, sorted]
  | record line fields ih =>
    cases t with
    | record line' fields' =>
      rw [same, sorted, sorted, sameFields_iff ih]
      simp
    | _ => simp [same, sorted]

theorem same_refl (t : Ty) : t.same t = true := (same_iff_sorted t t).mpr rfl

theorem same_symm {s t : Ty} (h : s.same t = true) : t.same s = true :=
  (same_iff_sorted t s).mpr ((same_iff_sorted s t).mp h).symm

theorem same_trans {s t u : Ty} (h : s.same t = true) (h' : t.same u = true) : s.same u = true :=
  (same_iff_sorted s u).mpr (((same_iff_sorted s t).mp h).trans ((same_iff_sorted t u).mp h'))

end TraitCalculus.Ty
