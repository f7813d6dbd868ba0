import Mathlib
import TraitCalculus.Proofs.Matching

/-! Counting as the same is an equivalence of types, and matching respects it. Records are compared
by their sorted fields, so what matching reads of a record, its labels, its fields and what is found
under a label, is the same for records that count as the same. -/
namespace TraitCalculus.Ty

section Records

variable {fs gs : List (String × Ty)}

theorem sameFields_iff_sorted :
    sameFields fs gs = true ↔ sortByLabel (sortedFields fs) = sortByLabel (sortedFields gs) :=
  sameFields_iff (fun f _ => same_iff_sorted f.2) gs

theorem perm_sortedFields (h : sameFields fs gs = true) :
    (sortedFields fs).Perm (sortedFields gs) := by
  rw [sameFields_iff_sorted] at h
  have hfs := List.perm_insertionSort byLabel (sortedFields fs)
  have hgs := List.perm_insertionSort byLabel (sortedFields gs)
  rw [← sortByLabel, h] at hfs
  exact hfs.symm.trans hgs

/-- Each field has a counterpart, of the same label and of a type that counts as the same. -/
theorem exists_mem_of_sameFields (h : sameFields fs gs = true) {g : String × Ty} (hg : g ∈ gs) :
    ∃ f ∈ fs, f.1 = g.1 ∧ f.2.same g.2 = true := by
  have hmem : (g.1, g.2.sorted) ∈ sortedFields gs := by
    rw [sortedFields_eq]
    exact List.mem_map_of_mem hg
  rw [← (perm_sortedFields h).mem_iff, sortedFields_eq] at hmem
  obtain ⟨f, hf, hfg⟩ := List.mem_map.mp hmem
  obtain ⟨hlabel, hsorted⟩ := Prod.mk.inj hfg
  exact ⟨f, hf, hlabel, (same_iff_sorted _ _).mpr hsorted⟩

theorem exists_lookup_of_sameFields (h : sameFields fs gs = true) {label : String} {t : Ty}
    (ht : fs.lookup label = some t) :
    ∃ u, gs.lookup label = some u ∧ t.same u = true := by
  have hlookup : (fs.lookup label).map sorted = (gs.lookup label).map sorted := by
    rw [sameFields_iff_sorted] at h
    have hsorted := congrArg (List.lookup label) h
    rwa [lookup_sortByLabel, lookup_sortByLabel, sortedFields_eq, sortedFields_eq,
      Assoc.lookup_map, Assoc.lookup_map] at hsorted
  rw [ht, Option.map_some] at hlookup
  obtain ⟨u, hu, hut⟩ := Option.map_eq_some_iff.mp hlookup.symm
  exact ⟨u, hu, (same_iff_sorted _ _).mpr hut.symm⟩

theorem mem_labels_iff_of_sameFields (h : sameFields fs gs = true) (label : String) :
    label ∈ fs.map (·.1) ↔ label ∈ gs.map (·.1) := by
  have hlabels (es : List (String × Ty)) : (sortedFields es).map (·.1) = es.map (·.1) := by
    rw [sortedFields_eq, List.map_map]
    rfl
  rw [← hlabels fs, ← hlabels gs]
  exact ((perm_sortedFields h).map _).mem_iff

/-- The order of fields does not matter. -/
theorem same_record_of_perm (h : fs.Perm gs) (hnodup : (fs.map (·.1)).Nodup)
    (line line' : Option Nat) : (record line fs).same (record line' gs) = true := by
  rw [same, sameFields_iff_lookup hnodup ((h.map _).nodup_iff.mp hnodup), sameLabels_iff]
  refine ⟨fun label => (h.map _).mem_iff, fun f hf => ⟨f.2, ?_, same_refl _⟩⟩
  exact Assoc.lookup_of_mem ((h.map _).nodup_iff.mp hnodup) (h.mem_iff.mp hf)

theorem sameLabels_of_sameFields {fs' gs' : List (String × Ty)} (hfs : sameFields fs fs' = true)
    (hgs : sameFields gs gs' = true) (h : sameLabels fs gs = true) : sameLabels fs' gs' = true := by
  rw [sameLabels_iff] at h ⊢
  intro label
  rw [← mem_labels_iff_of_sameFields hfs, ← mem_labels_iff_of_sameFields hgs]
  exact h label

end Records

/-- Sides that count as the same are matched with results that count as the same. -/
theorem Finds.exists_of_same {x : String} {a a' b b' u : Ty} (h : Finds x a b u)
    (ha : a.same a' = true) (hb : b.same b' = true) :
    ∃ u', a'.unify x b' = some u' ∧ u.same u' = true := by
  induction h generalizing a' b' with
  | name =>
    cases a' with
    | name line' y =>
      obtain rfl : x = y := of_decide_eq_true ha
      exact ⟨b', by rw [unify, if_pos rfl], hb⟩
    | _ => cases ha
  | arrow _ _ hvw ihd ihc =>
    cases a' with
    | arrow line' dom' cod' =>
      cases b' with
      | arrow line₁' c' d' =>
        obtain ⟨hdom, hcod⟩ := Bool.and_eq_true_iff.mp ha
        obtain ⟨hc, hd⟩ := Bool.and_eq_true_iff.mp hb
        obtain ⟨v', hv', hvv⟩ := ihd hdom hc
        obtain ⟨w', hw', hww⟩ := ihc hcod hd
        have hvw' : v'.same w' = true := same_trans (same_symm hvv) (same_trans hvw hww)
        refine ⟨v', ?_, hvv⟩
        simp only [unify, hv', hw', if_pos hvw']
      | _ => cases hb
    | _ => cases ha
  | list _ ih =>
    cases a' with
    | list line' elem' =>
      cases b' with
      | list line₁' c' =>
        rw [unify]
        exact ih ha hb
      | _ => cases hb
    | _ => cases ha
  | @record line line₁ fs gs last other found hlabels hother _ hsame hlast ih =>
    cases a' with
    | record line' fs' =>
      cases b' with
      | record line₁' gs' =>
        -- fields in another order find what their counterparts find
        have hall : ∀ f' ∈ fs', ∃ g' v', gs'.lookup f'.1 = some g' ∧ f'.2.unify x g' = some v' ∧
            v'.same (found last) = true := by
          intro f' hf'
          obtain ⟨f, hf, hlabel, hff⟩ := exists_mem_of_sameFields ha hf'
          obtain ⟨g', hg', hgg⟩ := exists_lookup_of_sameFields hb (hother f hf)
          obtain ⟨v', hv', hvv⟩ := ih f hf hff hgg
          exact ⟨g', v', hlabel ▸ hg', hv', same_trans (same_symm hvv) (hsame f hf)⟩
        -- a record without fields gives no type, whichever its counterpart is
        have hne : fs' ≠ [] := by
          rintro rfl
          have hlen := (perm_sortedFields ha).length_eq
          rw [sortedFields_eq, List.length_map] at hlen
          exact List.ne_nil_of_mem (List.mem_of_getLast? hlast) (List.length_eq_zero_iff.mp hlen)
        have hfound : ∀ w, (none : Option Ty) = some w → w.same (found last) = true := by simp
        obtain ⟨u', hu', huu⟩ := unifyFields_complete hall hfound fun _ => hne
        rw [unify, if_pos (sameLabels_of_sameFields ha hb hlabels)]
        exact ⟨u', hu', same_symm huu⟩
      | _ => cases hb
    | _ => cases ha

/-- Types count as the same exactly if their sorted forms are equal, which is an equivalence and
blind to the order of fields. Matching respects it: on sides that count as the same it fails
together or finds types that count as the same. -/
theorem matching_respects_same :
    (∀ a b : Ty, a.same b = true ↔ a.sorted = b.sorted) ∧
    Equivalence (fun a b : Ty => a.same b = true) ∧
    (∀ (fs gs : List (String × Ty)) (line line' : Option Nat), fs.Perm gs →
      (fs.map (·.1)).Nodup → (record line fs).same (record line' gs) = true) ∧
    ∀ (x : String) (a a' b b' : Ty), a.same a' = true → b.same b' = true →
      Option.Rel (fun u u' => u.same u' = true) (a.unify x b) (a'.unify x b') := by
  refine ⟨same_iff_sorted, ⟨same_refl, same_symm, same_trans⟩,
    fun fs gs line line' h hnodup => same_record_of_perm h hnodup line line', ?_⟩
  intro x a a' b b' ha hb
  cases h : a.unify x b with
  | some u =>
    obtain ⟨u', hu', huu⟩ := (finds_of_unify a h).exists_of_same ha hb
    rw [hu']
    exact .some huu
  | none =>
    cases h' : a'.unify x b' with
    | none => exact .none
    | some u' =>
      obtain ⟨u, hu, -⟩ :=
        (finds_of_unify a' h').exists_of_same (same_symm ha) (same_symm hb)
      rw [h] at hu
      cases hu

/-- `{l: [x], r: x}`. -/
def leftRight : Ty :=
  record none [("l", list none (name none "x")), ("r", name none "x")]

/-- `{r: forall a. a, l: [forall a impl Show. a]}`. -/
def rightLeft (line : Option Nat) : Ty :=
  record line [("r", all line "a" [] (name line "a")),
    ("l", list line (all line "a" ["Show"] (name line "a")))]

/-- A pattern and the one with its fields exchanged: each finds the type in its own last field, and
the two differ in their bounds. -/
theorem matching_respects_same_exchanged :
    ∃ u u', leftRight.unify "x" (rightLeft none) = some u ∧
      (record (some 1) [("r", name none "x"), ("l", list none (name none "x"))]).unify "x"
        (rightLeft (some 2)) = some u' ∧ u ≠ u' ∧ u.same u' = true := by
  obtain ⟨-, -, hperm, hunify⟩ := matching_respects_same
  have hpattern := hperm _ _ none (some 1)
    (List.Perm.swap ("r", name none "x") ("l", list none (name none "x")) []) (by decide)
  have hrel := hunify "x" _ _ (rightLeft none) (rightLeft (some 2)) hpattern (by decide)
  refine ⟨_, _, rfl, rfl, by simp, ?_⟩
  cases hrel with
  | some h => exact h

end TraitCalculus.Ty
