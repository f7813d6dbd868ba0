import Mathlib
import TraitCalculus.Proofs.AlphaEquivalence
import TraitCalculus.Proofs.TypeEquality

/-! Matching with one variable is sound and complete. It finds a type exactly if the pattern has
no leaves but the variable and some type in its place gives the other side; the type it finds does
so, and all others that do count as the same. -/
namespace TraitCalculus.Ty

/-- Built from the name `x` alone, by functions, lists and records that have fields. -/
inductive Skeleton (x : String) : Ty → Prop
  | name {line : Option Nat} : Skeleton x (name line x)
  | arrow {line : Option Nat} {dom cod : Ty} (hd : Skeleton x dom) (hc : Skeleton x cod) :
      Skeleton x (arrow line dom cod)
  | list {line : Option Nat} {elem : Ty} (h : Skeleton x elem) : Skeleton x (list line elem)
  | record {line : Option Nat} {fields : List (String × Ty)} (hne : fields ≠ [])
      (h : ∀ f ∈ fields, Skeleton x f.2) : Skeleton x (record line fields)

mutual

/-- No record in the type has two fields of one label. -/
def distinctLabels : Ty → Bool
  | name _ _ => true
  | all _ _ _ body => body.distinctLabels
  | arrow _ dom cod => dom.distinctLabels && cod.distinctLabels
  | app _ fn arg => fn.distinctLabels && arg.distinctLabels
  | list _ elem => elem.distinctLabels
  | emptyList => true
  | record _ fields => decide (fields.map (·.1)).Nodup && distinctLabelsFields fields

def distinctLabelsFields : List (String × Ty) → Bool
  | [] => true
  | (_, t) :: fields => t.distinctLabels && distinctLabelsFields fields

end

theorem distinctLabelsFields_iff {fields : List (String × Ty)} :
    distinctLabelsFields fields = true ↔ ∀ f ∈ fields, f.2.distinctLabels = true :=
  walk_eq_true rfl (fun _ _ => rfl) fields

mutual

/-- `v` at all leaves `x` that no quantifier stands above. -/
def fill : Ty → String → Ty → Ty
  | name line y, x, v => if y = x then v else name line y
  | all line y bounds body, _, _ => all line y bounds body
  | arrow line dom cod, x, v => arrow line (dom.fill x v) (cod.fill x v)
  | app line fn arg, _, _ => app line fn arg
  | list line elem, x, v => list line (elem.fill x v)
  | emptyList, _, _ => emptyList
  | record line fields, x, v => record line (fillFields fields x v)

def fillFields : List (String × Ty) → String → Ty → List (String × Ty)
  | [], _, _ => []
  | (label, t) :: fields, x, v => (label, t.fill x v) :: fillFields fields x v

end

-- Every proof below unfolds these, so their equations are made here, once.
attribute [local simp] fill unify same in
theorem fillFields_eq (x : String) (v : Ty) (fields : List (String × Ty)) :
    fillFields fields x v = fields.map fun f => (f.1, f.2.fill x v) := by
  induction fields with
  | nil => rfl
  | cons f fields ih => simp [fillFields, ih]

/-- A skeleton has no binders, so substitution draws no names. -/
theorem Skeleton.run_subst {x : String} {t : Ty} (h : t.Skeleton x) (v : Ty) (k : Nat) :
    (t.subst x v).run k = (t.fill x v, k) := by
  unfold subst
  induction h generalizing k with
  | @name line =>
    rw [fill, if_pos rfl]
    exact congrArg (·, k) (substName_of_eq [] line x v)
  | arrow _ _ ihd ihc => rw [run_substIn_arrow, ihd, ihc, fill]
  | @list line elem _ ih =>
    have hrun : ((Ty.list line elem).substIn [] (some (x, v))).run k =
        (Ty.list line ((elem.substIn [] (some (x, v))).run k).1,
          ((elem.substIn [] (some (x, v))).run k).2) := rfl
    rw [hrun, ih, fill]
  | @record line fields hne hfields ih =>
    clear hne hfields
    have hrun : ((Ty.record line fields).substIn [] (some (x, v))).run k =
        (Ty.record line ((substFields [] (some (x, v)) fields).run k).1,
          ((substFields [] (some (x, v)) fields).run k).2) := rfl
    suffices hfields : (substFields [] (some (x, v)) fields).run k = (fillFields fields x v, k) by
      rw [hrun, hfields, fill]
    clear hrun
    induction fields with
    | nil => rfl
    | cons f fields ihs =>
      rw [run_substFields_cons, ih f List.mem_cons_self,
        ihs fun g hg => ih g (List.mem_cons_of_mem f hg)]
      rfl

/-- Types that count as the same fill a pattern with results that do. -/
theorem fill_same (t : Ty) (x : String) {u v : Ty} (h : u.same v = true) :
    (t.fill x u).same (t.fill x v) = true := by
  rw [same_iff_sorted] at h ⊢
  induction t using Ty.induction with
  | name line y =>
    rw [fill, fill]
    split_ifs
    · exact h
    · rfl
  | arrow line dom cod ihd ihc => rw [fill, fill, sorted, sorted, ihd, ihc]
  | list line elem ih => rw [fill, fill, sorted, sorted, ih]
  | record line fields ih =>
    rw [fill, fill, sorted, sorted, sortedFields_eq, sortedFields_eq, fillFields_eq,
      fillFields_eq, List.map_map, List.map_map]
    congr 2
    apply List.map_congr_left
    intro f hf
    exact Prod.ext rfl (ih f hf)
  | all | app | emptyList => rfl

theorem sameLabels_iff {fs gs : List (String × Ty)} :
    sameLabels fs gs = true ↔ ∀ label, label ∈ fs.map (·.1) ↔ label ∈ gs.map (·.1) := by
  simp only [sameLabels, Bool.and_eq_true, List.all_eq_true, List.any_eq_true,
    decide_eq_true_eq, List.mem_map]
  constructor
  · rintro ⟨hfg, hgf⟩ label
    constructor
    · rintro ⟨f, hf, rfl⟩
      exact hfg f hf
    · rintro ⟨g, hg, rfl⟩
      exact hgf g hg
  · intro h
    exact ⟨fun f hf => (h f.1).mp ⟨f, hf, rfl⟩, fun g hg => (h g.1).mpr ⟨g, hg, rfl⟩⟩

theorem mem_labels_of_lookup {fs : List (String × Ty)} {label : String} {t : Ty}
    (h : fs.lookup label = some t) : label ∈ fs.map (·.1) :=
  List.mem_map_of_mem (Assoc.mem_of_lookup h)

theorem labels_eraseP (gs : List (String × Ty)) (label : String) :
    (gs.eraseP (·.1 = label)).map (·.1) = (gs.map (·.1)).erase label := by
  induction gs with
  | nil => rfl
  | cons g gs ih =>
    by_cases h : g.1 = label
    · simp [h]
    · simp [h, ih]

/-- For fields without repeated labels, counting as the same is a matter of labels and lookups. -/
theorem sameFields_iff_lookup {fs gs : List (String × Ty)} (hfs : (fs.map (·.1)).Nodup)
    (hgs : (gs.map (·.1)).Nodup) :
    sameFields fs gs = true ↔ sameLabels fs gs = true ∧
      ∀ f ∈ fs, ∃ t, gs.lookup f.1 = some t ∧ f.2.same t = true := by
  induction fs generalizing gs with
  | nil =>
    rw [sameFields, List.isEmpty_iff]
    constructor
    · rintro rfl
      exact ⟨rfl, by simp⟩
    · rintro ⟨hlabels, -⟩
      cases gs with
      | nil => rfl
      | cons g gs => exact absurd ((sameLabels_iff.mp hlabels g.1).mpr (by simp)) (by simp)
  | cons f fs ih =>
    obtain ⟨label, t⟩ := f
    obtain ⟨hout, hfs⟩ := List.nodup_cons.mp hfs
    rw [sameFields]
    cases hl : gs.lookup label with
    | none =>
      constructor
      · intro h
        cases h
      · rintro ⟨-, h⟩
        obtain ⟨u, hu, -⟩ := h (label, t) List.mem_cons_self
        rw [hl] at hu
        cases hu
    | some u =>
      have hlabel := mem_labels_of_lookup hl
      -- the rest of the other side has the other labels, each with its field
      have hrest : ∀ w, w ∈ (gs.eraseP (·.1 = label)).map (·.1) ↔ w ≠ label ∧ w ∈ gs.map (·.1) := by
        intro w
        rw [labels_eraseP, hgs.mem_erase_iff]
      have hlookup : ∀ f ∈ fs, (gs.eraseP (·.1 = label)).lookup f.1 = gs.lookup f.1 := by
        intro f hf
        apply Assoc.lookup_eraseP_of_ne
        intro he
        have hmem : f.1 ∈ fs.map (·.1) := List.mem_map_of_mem hf
        rw [he] at hmem
        exact hout hmem
      have hlabels : sameLabels ((label, t) :: fs) gs = true ↔
          sameLabels fs (gs.eraseP (·.1 = label)) = true := by
        rw [sameLabels_iff, sameLabels_iff]
        apply forall_congr'
        intro w
        rw [hrest, List.map_cons, List.mem_cons]
        grind
      have hnodup : ((gs.eraseP (·.1 = label)).map (·.1)).Nodup :=
        labels_eraseP gs label ▸ hgs.erase label
      rw [Bool.and_eq_true, ih hfs hnodup, hlabels, List.forall_mem_cons]
      constructor
      · rintro ⟨htu, hsame, hall⟩
        refine ⟨hsame, ⟨u, hl, htu⟩, ?_⟩
        intro f hf
        rw [← hlookup f hf]
        exact hall f hf
      · rintro ⟨hsame, ⟨u', hu', htu⟩, hall⟩
        obtain rfl : u = u' := Option.some.inj (hl.symm.trans hu')
        refine ⟨htu, hsame, ?_⟩
        intro f hf
        rw [hlookup f hf]
        exact hall f hf

/-- What matching of fields has found: every field finds a type that counts as the same as the
result, and so did the fields before. The result is what the last field finds. -/
theorem unifyFields_sound {x : String} {found : Option Ty} {fs gs : List (String × Ty)} {u : Ty}
    (h : unifyFields x found fs gs = some u) :
    (∀ f ∈ fs, ∃ g v, gs.lookup f.1 = some g ∧ f.2.unify x g = some v ∧ v.same u = true) ∧
      (∀ w, found = some w → w.same u = true) ∧
      (found = some u ∧ fs = [] ∨ ∃ last g, fs.getLast? = some last ∧ gs.lookup last.1 = some g ∧
        last.2.unify x g = some u) := by
  induction fs generalizing found with
  | nil =>
    obtain rfl : found = some u := h
    refine ⟨by simp, ?_, .inl ⟨rfl, rfl⟩⟩
    intro w hw
    exact Option.some.inj hw ▸ same_refl u
  | cons f fs ih =>
    obtain ⟨label, t⟩ := f
    rw [unifyFields] at h
    split at h
    · cases h
    · rename_i g hg
      split at h
      · cases h
      · rename_i v hv
        split_ifs at h with hall
        obtain ⟨hrest, hbefore, hlast⟩ := ih h
        have hvu : v.same u = true := hbefore v rfl
        refine ⟨List.forall_mem_cons.mpr ⟨⟨g, v, hg, hv, hvu⟩, hrest⟩, ?_, .inr ?_⟩
        · rintro w rfl
          exact same_trans (by simpa using hall) hvu
        · obtain ⟨hu, rfl⟩ | ⟨last, g', hlast, hg', hu⟩ := hlast
          · exact ⟨(label, t), g, rfl, hg, hv.trans hu⟩
          · exact ⟨last, g', by simp [List.getLast?_cons, hlast], hg', hu⟩

/-- If all fields find types that count as the same as `v`, then matching of fields does. -/
theorem unifyFields_complete {x : String} {found : Option Ty} {fs gs : List (String × Ty)} {v : Ty}
    (h : ∀ f ∈ fs, ∃ g u, gs.lookup f.1 = some g ∧ f.2.unify x g = some u ∧ u.same v = true)
    (hfound : ∀ w, found = some w → w.same v = true) (hne : found = none → fs ≠ []) :
    ∃ u, unifyFields x found fs gs = some u ∧ u.same v = true := by
  induction fs generalizing found with
  | nil =>
    cases found with
    | none => exact absurd rfl (hne rfl)
    | some w => exact ⟨w, rfl, hfound w rfl⟩
  | cons f fs ih =>
    obtain ⟨label, t⟩ := f
    obtain ⟨⟨g, u, hg, hu, huv⟩, hrest⟩ := List.forall_mem_cons.mp h
    have hall : found.all (·.same u) = true := by
      cases found with
      | none => rfl
      | some w => exact same_trans (hfound w rfl) (same_symm huv)
    have hu' : t.unify x g = some u := hu
    have hg' : gs.lookup label = some g := hg
    have hstep : unifyFields x found ((label, t) :: fs) gs = unifyFields x (some u) fs gs := by
      simp only [unifyFields, hg', hu', if_pos hall]
    rw [hstep]
    apply ih hrest
    · intro w hw
      exact Option.some.inj hw ▸ huv
    · simp

theorem distinctLabels_record {line : Option Nat} {fields : List (String × Ty)}
    (h : (record line fields).distinctLabels = true) :
    (fields.map (·.1)).Nodup ∧ ∀ f ∈ fields, f.2.distinctLabels = true := by
  obtain ⟨hnodup, hall⟩ := Bool.and_eq_true_iff.mp h
  exact ⟨of_decide_eq_true hnodup, distinctLabelsFields_iff.mp hall⟩

theorem labels_fillFields (fields : List (String × Ty)) (x : String) (v : Ty) :
    (fillFields fields x v).map (·.1) = fields.map (·.1) := by
  rw [fillFields_eq, List.map_map]
  rfl

/-- A run of matching: what each part of a pattern finds in its part of the other side. A function
gives what its domain finds, and a record what its last field finds. -/
inductive Finds (x : String) : Ty → Ty → Ty → Prop
  | name {line : Option Nat} {t : Ty} : Finds x (name line x) t t
  | arrow {line line' : Option Nat} {a b c d u v : Ty} (hd : Finds x a c u) (hc : Finds x b d v)
      (hsame : u.same v = true) : Finds x (arrow line a b) (arrow line' c d) u
  | list {line line' : Option Nat} {a b u : Ty} (h : Finds x a b u) :
      Finds x (list line a) (list line' b) u
  | record {line line' : Option Nat} {fs gs : List (String × Ty)} {last : String × Ty}
      (other found : String × Ty → Ty) (hlabels : sameLabels fs gs = true)
      (hother : ∀ f ∈ fs, gs.lookup f.1 = some (other f))
      (h : ∀ f ∈ fs, Finds x f.2 (other f) (found f))
      (hsame : ∀ f ∈ fs, (found f).same (found last) = true) (hlast : fs.getLast? = some last) :
      Finds x (record line fs) (record line' gs) (found last)

theorem finds_of_unify (s : Ty) {x : String} {t u : Ty} (h : s.unify x t = some u) :
    Finds x s t u := by
  induction s using Ty.induction generalizing t u with
  | name line y =>
    rw [unify] at h
    split_ifs at h with hy
    rw [hy, Option.some.inj h]
    exact .name
  | arrow line a b iha ihb =>
    cases t with
    | arrow line' c d =>
      rw [unify] at h
      split at h
      · rename_i v w hv hw
        split_ifs at h with hsame
        exact Option.some.inj h ▸ .arrow (iha hv) (ihb hw) hsame
      · cases h
    | _ => simp [unify] at h
  | list line a ih =>
    cases t with
    | list line' b => exact .list (ih h)
    | _ => simp [unify] at h
  | record line fs ih =>
    cases t with
    | record line' gs =>
      rw [unify] at h
      split_ifs at h with hlabels
      obtain ⟨hall, -, ⟨hnone, -⟩ | ⟨last, g, hlast, hg, hu⟩⟩ := unifyFields_sound h
      · cases hnone
      · have : Nonempty Ty := ⟨emptyList⟩
        choose! other found hother hfound hsame using hall
        have hmem : last ∈ fs := List.mem_of_getLast? hlast
        obtain rfl : g = other last := Option.some.inj (hg.symm.trans (hother last hmem))
        obtain rfl : u = found last := Option.some.inj (hu.symm.trans (hfound last hmem))
        exact .record other found hlabels hother (fun f hf => ih f hf (hfound f hf)) hsame hlast
    | _ => simp [unify] at h
  | all line y bounds body ih | app line fn arg ihf iha | emptyList => cases t <;> simp [unify] at h

/-- Only a skeleton can be matched. -/
theorem Finds.skeleton {x : String} {s t u : Ty} (h : Finds x s t u) : s.Skeleton x := by
  induction h with
  | name => exact .name
  | arrow _ _ _ ihd ihc => exact .arrow ihd ihc
  | list _ ih => exact .list ih
  | record other found _ _ _ _ hlast ih =>
    exact .record (List.ne_nil_of_mem (List.mem_of_getLast? hlast)) ih

/-- A skeleton is left with no names of its own. -/
theorem Skeleton.names_fill {s : Ty} {x : String} (h : s.Skeleton x) (v : Ty) :
    ∀ w ∈ (s.fill x v).names, w ∈ v.names := by
  induction h with
  | name =>
    rw [fill, if_pos rfl]
    exact fun w hw => hw
  | arrow _ _ ihd ihc => exact List.forall_mem_append.mpr ⟨ihd, ihc⟩
  | list _ ih => exact ih
  | @record line fields _ _ ih =>
    intro w hw
    rw [fill, names, mem_namesFields, fillFields_eq] at hw
    obtain ⟨g, hg, hwg⟩ := hw
    obtain ⟨f, hf, rfl⟩ := List.mem_map.mp hg
    exact ih f hf w hwg

/-- What matching finds solves the problem. -/
theorem Finds.solves {x : String} {s t u : Ty} (h : Finds x s t u) (hs : s.distinctLabels = true)
    (ht : t.distinctLabels = true) : (s.fill x u).same t = true := by
  induction h with
  | @name line t =>
    rw [fill, if_pos rfl]
    exact same_refl t
  | @arrow line line' a b c d u v _ _ hsame iha ihb =>
    obtain ⟨hsa, hsb⟩ := Bool.and_eq_true_iff.mp hs
    obtain ⟨htc, htd⟩ := Bool.and_eq_true_iff.mp ht
    -- the right side found a type that counts as the same
    have hfb : (b.fill x u).same d = true := same_trans (fill_same b x hsame) (ihb hsb htd)
    exact Bool.and_eq_true_iff.mpr ⟨iha hsa htc, hfb⟩
  | list _ ih => exact ih hs ht
  | @record line line' fs gs last other found hlabels hother _ hsame _ ih =>
    obtain ⟨hnodup, hfs⟩ := distinctLabels_record hs
    obtain ⟨hnodup', hgs⟩ := distinctLabels_record ht
    rw [fill, same, sameFields_iff_lookup (labels_fillFields fs x _ ▸ hnodup) hnodup',
      fillFields_eq]
    constructor
    · rw [sameLabels_iff, List.map_map]
      exact sameLabels_iff.mp hlabels
    · intro f' hf'
      obtain ⟨f, hf, rfl⟩ := List.mem_map.mp hf'
      have hfill := ih f hf (hfs f hf) (hgs (f.1, other f) (Assoc.mem_of_lookup (hother f hf)))
      exact ⟨other f, hother f hf, same_trans (fill_same f.2 x (same_symm (hsame f hf))) hfill⟩

/-- A problem that has a solution is solved, by a type that counts as the same. -/
theorem Skeleton.unify_complete {s : Ty} {x : String} (h : s.Skeleton x) {t v : Ty}
    (hs : s.distinctLabels = true) (ht : t.distinctLabels = true)
    (hv : (s.fill x v).same t = true) : ∃ u, s.unify x t = some u ∧ u.same v = true := by
  induction h generalizing t with
  | name =>
    rw [fill, if_pos rfl] at hv
    exact ⟨t, by rw [unify, if_pos rfl], same_symm hv⟩
  | @arrow line a b _ _ iha ihb =>
    cases t with
    | arrow line' c d =>
      obtain ⟨hsa, hsb⟩ := Bool.and_eq_true_iff.mp hs
      obtain ⟨htc, htd⟩ := Bool.and_eq_true_iff.mp ht
      obtain ⟨hva, hvb⟩ := Bool.and_eq_true_iff.mp hv
      obtain ⟨u, hu, huv⟩ := iha hsa htc hva
      obtain ⟨w, hw, hwv⟩ := ihb hsb htd hvb
      have huw : u.same w = true := same_trans huv (same_symm hwv)
      exact ⟨u, by simp only [unify, hu, hw, if_pos huw], huv⟩
    | _ => simp [fill, same] at hv
  | @list line a _ ih =>
    cases t with
    | list line' b =>
      have htb : b.distinctLabels = true := ht
      exact ih hs htb hv
    | _ => simp [fill, same] at hv
  | @record line fs hne _ ih =>
    cases t with
    | record line' gs =>
      obtain ⟨hnodup, hfs⟩ := distinctLabels_record hs
      obtain ⟨hnodup', hgs⟩ := distinctLabels_record ht
      rw [fill, same, sameFields_iff_lookup (labels_fillFields fs x v ▸ hnodup) hnodup'] at hv
      obtain ⟨hlabels, hall⟩ := hv
      have hlabels' : sameLabels fs gs = true := by
        rw [sameLabels_iff, labels_fillFields] at hlabels
        exact sameLabels_iff.mpr hlabels
      rw [unify, if_pos hlabels']
      apply unifyFields_complete _ (by simp) fun _ => hne
      intro f hf
      have hmem : (f.1, f.2.fill x v) ∈ fillFields fs x v := by
        rw [fillFields_eq]
        exact List.mem_map_of_mem hf
      obtain ⟨g, hg, hsame⟩ := hall _ hmem
      obtain ⟨u, hu, huv⟩ := ih f hf (hfs f hf) (hgs (f.1, g) (Assoc.mem_of_lookup hg)) hsame
      exact ⟨g, u, hg, hu, huv⟩
    | _ => simp [fill, same] at hv

/-- Matching is sound and complete. It finds a type exactly if the pattern is built from the
variable alone and some type in the variable's place makes it count as the same as the other side.
The type it finds does this, and every other type that does counts as the same. -/
theorem unify_iff_solvable (s t : Ty) (x : String) (hs : s.distinctLabels = true)
    (ht : t.distinctLabels = true) (k : Nat) :
    ((∃ u, s.unify x t = some u) ↔
      s.Skeleton x ∧ ∃ v, ((s.subst x v).run k).1.same t = true) ∧
    ∀ u, s.unify x t = some u → ((s.subst x u).run k).1.same t = true ∧
      ∀ v, ((s.subst x v).run k).1.same t = true → u.same v = true := by
  have hfound : ∀ u, s.unify x t = some u →
      s.Skeleton x ∧ ((s.subst x u).run k).1.same t = true := by
    intro u hu
    have hfinds := finds_of_unify s hu
    refine ⟨hfinds.skeleton, ?_⟩
    rw [hfinds.skeleton.run_subst u k]
    exact hfinds.solves hs ht
  refine ⟨⟨?_, ?_⟩, ?_⟩
  · rintro ⟨u, hu⟩
    exact ⟨(hfound u hu).1, u, (hfound u hu).2⟩
  · rintro ⟨hsk, v, hv⟩
    rw [hsk.run_subst v k] at hv
    obtain ⟨u, hu, -⟩ := hsk.unify_complete hs ht hv
    exact ⟨u, hu⟩
  · intro u hu
    obtain ⟨hsk, hsame⟩ := hfound u hu
    refine ⟨hsame, ?_⟩
    intro v hv
    rw [hsk.run_subst v k] at hv
    obtain ⟨u', hu', huv⟩ := hsk.unify_complete hs ht hv
    obtain rfl : u = u' := Option.some.inj (hu.symm.trans hu')
    exact huv

theorem unifyFields_of_nameless_eq {x x' : String} {fs gs : List (String × Ty)}
    (ih : ∀ f ∈ fs, ∀ g : Ty, f.2.nameless [x] = g.nameless [x'] →
      ∀ t, f.2.unify x t = g.unify x' t)
    (h : namelessFields [x] fs = namelessFields [x'] gs) (found : Option Ty)
    (ts : List (String × Ty)) :
    unifyFields x found fs ts = unifyFields x' found gs ts := by
  induction fs generalizing gs found with
  | nil =>
    cases gs with
    | nil => rfl
    | cons g gs => cases h
  | cons f fs ihs =>
    cases gs with
    | nil => cases h
    | cons g gs =>
      simp only [namelessFields, List.cons.injEq, Prod.mk.injEq] at h
      obtain ⟨ihf, ihfs⟩ := List.forall_mem_cons.mp ih
      have hrest := fun v => ihs ihfs h.2 v
      simp only [unifyFields, h.1.1, ihf g.2 h.1.2, hrest]

/-- Matching does not depend on the name of the variable, nor on how the pattern's quantifiers are
named. -/
theorem unify_of_nameless_eq (s : Ty) {s' : Ty} {x x' : String}
    (h : s.nameless [x] = s'.nameless [x']) (t : Ty) : s.unify x t = s'.unify x' t := by
  induction s using Ty.induction generalizing s' t with
  | name line y =>
    cases s' with
    | name line' y' =>
      have hy : y = x ↔ y' = x' := by
        simp only [nameless, List.mem_singleton] at h
        split_ifs at h with hx hx' <;> simp_all
      simp only [unify, hy]
    | _ => grind [nameless]
  | arrow line a b iha ihb =>
    cases s' with
    | arrow line' a' b' =>
      obtain ⟨ha, hb⟩ := Nameless.arrow.inj h
      cases t with
      | arrow => simp only [unify, iha ha, ihb hb]
      | _ => rfl
    | _ => grind [nameless]
  | list line a ih =>
    cases s' with
    | list line' a' =>
      cases t with
      | list => exact ih (Nameless.list.inj h) _
      | _ => rfl
    | _ => grind [nameless]
  | record line fs ih =>
    cases s' with
    | record line' gs =>
      have hfields := Nameless.record.inj h
      cases t with
      | record line'' ts =>
        have hlabels : fs.map (·.1) = gs.map (·.1) := by
          have hmap := congrArg (List.map Prod.fst) hfields
          simpa [namelessFields_eq, Function.comp_def] using hmap
        have hsame : sameLabels fs ts = sameLabels gs ts := by
          rw [Bool.eq_iff_iff, sameLabels_iff, sameLabels_iff, hlabels]
        have hunify : unifyFields x none fs ts = unifyFields x' none gs ts :=
          unifyFields_of_nameless_eq (fun f hf g hg => ih f hf hg) hfields none ts
        rw [unify, unify, hsame, hunify]
      | _ => rfl
    | _ => grind [nameless]
  | all line y bounds body ih | app line fn arg ihf iha | emptyList =>
    cases s' <;> cases t <;> grind [nameless, unify]

/-- `x -> {l: [x], r: x}`. -/
def patternSample : Ty :=
  arrow none (name none "x")
    (record none [("l", list none (name none "x")), ("r", name none "x")])

/-- A function into records with quantified types, which differ in their bounds and are written in
another order than the pattern's. -/
def targetSample : Ty :=
  arrow none (quantified ["Show"])
    (record none [("r", quantified []), ("l", list none (quantified ["Eq"]))])
where
  quantified (bounds : List String) : Ty := all none "a" bounds (name none "a")

theorem unify_iff_solvable_sample :
    patternSample.distinctLabels = true ∧ targetSample.distinctLabels = true ∧
      (∃ u, patternSample.unify "x" targetSample = some u) ∧
      ((∃ u, patternSample.unify "x" targetSample = some u) ↔ patternSample.Skeleton "x" ∧
        ∃ v, ((patternSample.subst "x" v).run 0).1.same targetSample = true) ∧
      ∀ u, patternSample.unify "x" targetSample = some u →
        ((patternSample.subst "x" u).run 0).1.same targetSample = true ∧
        ∀ v, ((patternSample.subst "x" v).run 0).1.same targetSample = true → u.same v = true := by
  have hs : patternSample.distinctLabels = true := by decide
  have ht : targetSample.distinctLabels = true := by decide
  have hsome : (patternSample.unify "x" targetSample).isSome = true := by decide
  exact ⟨hs, ht, Option.isSome_iff_exists.mp hsome, unify_iff_solvable _ _ "x" hs ht 0⟩

end TraitCalculus.Ty
