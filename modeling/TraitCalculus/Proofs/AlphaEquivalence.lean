import Mathlib
import TraitCalculus.Assoc
import TraitCalculus.Proofs.FreshNames
import TraitCalculus.Proofs.Walks
import TraitCalculus.Ty.Subst

/-! Types up to the names of their bound variables. A type has a nameless form, in which
substitution needs no renaming; two types are alpha-equivalent if they have the same form. The
substitution that draws fresh names agrees with the one on nameless forms as long as all names in
use are old. -/
namespace TraitCalculus

/-- A type in which a bound variable is the number of quantifiers between it and its own. Lines
are dropped, trait bounds and labels kept. -/
inductive Nameless where
  | bound (i : Nat)
  | free (x : String)
  | all (bounds : List String) (body : Nameless)
  | arrow (dom cod : Nameless)
  | app (fn arg : Nameless)
  | list (elem : Nameless)
  | emptyList
  | record (fields : List (String × Nameless))
deriving Repr, Inhabited

namespace Nameless

mutual

/-- `new` for the free name `x`. No name of `new` can be captured. -/
def subst : Nameless → String → Nameless → Nameless
  | bound i, _, _ => bound i
  | free y, x, new => if y = x then new else free y
  | all bounds body, x, new => all bounds (body.subst x new)
  | arrow dom cod, x, new => arrow (dom.subst x new) (cod.subst x new)
  | app fn arg, x, new => app (fn.subst x new) (arg.subst x new)
  | list elem, x, new => list (elem.subst x new)
  | emptyList, _, _ => emptyList
  | record fields, x, new => record (substFields fields x new)

def substFields : List (String × Nameless) → String → Nameless → List (String × Nameless)
  | [], _, _ => []
  | (label, t) :: fields, x, new => (label, t.subst x new) :: substFields fields x new

end

mutual

def freeNames : Nameless → List String
  | bound _ => []
  | free x => [x]
  | all _ body => body.freeNames
  | arrow dom cod => dom.freeNames ++ cod.freeNames
  | app fn arg => fn.freeNames ++ arg.freeNames
  | list elem => elem.freeNames
  | emptyList => []
  | record fields => freeNamesFields fields

def freeNamesFields : List (String × Nameless) → List String
  | [] => []
  | (_, t) :: fields => t.freeNames ++ freeNamesFields fields

end

end Nameless

namespace Ty

mutual

/-- The nameless form under quantifiers over `xs`, the innermost first. -/
def nameless (xs : List String) : Ty → Nameless
  | name _ x => if x ∈ xs then .bound (xs.idxOf x) else .free x
  | all _ x bounds body => .all bounds (body.nameless (x :: xs))
  | arrow _ dom cod => .arrow (dom.nameless xs) (cod.nameless xs)
  | app _ fn arg => .app (fn.nameless xs) (arg.nameless xs)
  | list _ elem => .list (elem.nameless xs)
  | emptyList => .emptyList
  | record _ fields => .record (namelessFields xs fields)

def namelessFields (xs : List String) : List (String × Ty) → List (String × Nameless)
  | [] => []
  | (label, t) :: fields => (label, t.nameless xs) :: namelessFields xs fields

end

/-- The types differ in lines and in names of bound variables only. -/
def AlphaEq (s t : Ty) : Prop := s.nameless [] = t.nameless []

mutual

/-- All names of a type, those of its quantifiers included. -/
def names : Ty → List String
  | name _ x => [x]
  | all _ x _ body => x :: body.names
  | arrow _ dom cod => dom.names ++ cod.names
  | app _ fn arg => fn.names ++ arg.names
  | list _ elem => elem.names
  | emptyList => []
  | record _ fields => namesFields fields

def namesFields : List (String × Ty) → List String
  | [] => []
  | (_, t) :: fields => t.names ++ namesFields fields

end

theorem mem_freeFields {x : String} {fields : List (String × Ty)} :
    x ∈ freeFields fields ↔ ∃ f ∈ fields, x ∈ f.2.free :=
  mem_walk rfl (fun _ _ => rfl) fields

theorem mem_namesFields {x : String} {fields : List (String × Ty)} :
    x ∈ namesFields fields ↔ ∃ f ∈ fields, x ∈ f.2.names :=
  mem_walk rfl (fun _ _ => rfl) fields

theorem namelessFields_eq (xs : List String) (fields : List (String × Ty)) :
    namelessFields xs fields = fields.map fun f => (f.1, f.2.nameless xs) :=
  walk_eq_map rfl (fun _ _ => rfl) fields

theorem free_subset_names (t : Ty) : ∀ x ∈ t.free, x ∈ t.names := by
  induction t using Ty.induction with
  | name line x => simp [free, names]
  | all line x bounds body ih =>
    intro y hy
    have hy' : y ∈ body.free ∧ y ≠ x := by simpa [free] using hy
    exact List.mem_cons_of_mem x (ih y hy'.1)
  | arrow line dom cod ihd ihc | app line fn arg ihd ihc =>
    intro y hy
    rcases List.mem_append.mp hy with h | h
    · exact List.mem_append_left _ (ihd y h)
    · exact List.mem_append_right _ (ihc y h)
  | list line elem ih => exact ih
  | emptyList => simp [free]
  | record line fields ih =>
    intro y hy
    obtain ⟨f, hf, hyf⟩ := mem_freeFields.mp hy
    exact mem_namesFields.mpr ⟨f, hf, ih f hf y hyf⟩

/-- Quantifiers further out whose names are not free do not count. -/
theorem nameless_append (t : Ty) (xs ys : List String)
    (h : ∀ y ∈ ys, y ∈ t.free → y ∈ xs) : t.nameless (xs ++ ys) = t.nameless xs := by
  induction t using Ty.induction generalizing xs with
  | name line x =>
    by_cases hx : x ∈ xs
    · simp [nameless, hx, List.idxOf_append]
    · have hy : x ∉ ys := fun hm => hx (h x hm (by simp [free]))
      simp [nameless, hx, hy]
  | all line x bounds body ih =>
    simp only [nameless]
    rw [← List.cons_append, ih (x :: xs)]
    intro y hy hyb
    by_cases hxy : y = x
    · simp [hxy]
    · exact List.mem_cons_of_mem x (h y hy (by simp [free, hyb, hxy]))
  | arrow line dom cod ihd ihc | app line fn arg ihd ihc =>
    simp only [nameless]
    rw [ihd xs (fun y hy hd => h y hy (List.mem_append_left _ hd)),
      ihc xs (fun y hy hc => h y hy (List.mem_append_right _ hc))]
  | list line elem ih => simp only [nameless, ih xs h]
  | emptyList => rfl
  | record line fields ih =>
    simp only [nameless, namelessFields_eq]
    congr 1
    apply List.map_congr_left
    intro f hf
    rw [ih f hf xs (fun y hy hyf => h y hy (mem_freeFields.mpr ⟨f, hf, hyf⟩))]

/-- A type none of whose free names is quantified over looks the same inside. -/
theorem nameless_eq_nil (t : Ty) (ys : List String) (h : ∀ y ∈ ys, y ∉ t.free) :
    t.nameless ys = t.nameless [] :=
  nameless_append t [] ys fun y hy hf => absurd hf (h y hy)

end Ty

namespace Nameless

theorem mem_freeNamesFields {x : String} {fields : List (String × Nameless)} :
    x ∈ freeNamesFields fields ↔ ∃ f ∈ fields, x ∈ f.2.freeNames :=
  mem_walk rfl (fun _ _ => rfl) fields

theorem substFields_eq (fields : List (String × Nameless)) (x : String) (new : Nameless) :
    substFields fields x new = fields.map fun f => (f.1, f.2.subst x new) := by
  induction fields with
  | nil => rfl
  | cons f fields ih => simp [substFields, ih]

/-- Induction over nameless types, with one hypothesis for all fields of a record. -/
theorem induction {motive : Nameless → Prop}
    (bound : ∀ i, motive (bound i)) (free : ∀ x, motive (free x))
    (all : ∀ bounds body, motive body → motive (all bounds body))
    (arrow : ∀ dom cod, motive dom → motive cod → motive (arrow dom cod))
    (app : ∀ fn arg, motive fn → motive arg → motive (app fn arg))
    (list : ∀ elem, motive elem → motive (list elem))
    (emptyList : motive emptyList)
    (record : ∀ fields, (∀ f ∈ fields, motive f.2) → motive (record fields)) :
    ∀ t, motive t := by
  intro t
  refine @Nameless.rec motive (fun fs => ∀ f ∈ fs, motive f.2) (fun f => motive f.2)
    bound free all arrow app list emptyList record ?_ ?_ ?_ t
  · intro f hf
    cases hf
  · intro f fs hf hfs g hg
    rcases List.mem_cons.mp hg with rfl | hg
    · exact hf
    · exact hfs g hg
  · intro _ _ h
    exact h

theorem freeNames_subst (t : Nameless) (x : String) (new : Nameless) {y : String}
    (hy : y ∈ (t.subst x new).freeNames) : (y ∈ t.freeNames ∧ y ≠ x) ∨ y ∈ new.freeNames := by
  induction t using Nameless.induction with
  | bound i => simp [subst, freeNames] at hy
  | free z =>
    by_cases hz : z = x
    · rw [subst, if_pos hz] at hy
      exact Or.inr hy
    · rw [subst, if_neg hz] at hy
      have hyz : y = z := by simpa [freeNames] using hy
      exact Or.inl ⟨hy, hyz ▸ hz⟩
  | all bounds body ih => exact ih hy
  | arrow dom cod ihd ihc | app fn arg ihd ihc =>
    rcases List.mem_append.mp hy with h | h
    · exact (ihd h).imp_left fun h => ⟨List.mem_append_left _ h.1, h.2⟩
    · exact (ihc h).imp_left fun h => ⟨List.mem_append_right _ h.1, h.2⟩
  | list elem ih => exact ih hy
  | emptyList => simp [subst, freeNames] at hy
  | record fields ih =>
    rw [subst, freeNames, substFields_eq, mem_freeNamesFields] at hy
    obtain ⟨g, hg, hyg⟩ := hy
    obtain ⟨f, hf, rfl⟩ := List.mem_map.mp hg
    exact (ih f hf hyg).imp_left fun h => ⟨mem_freeNamesFields.mpr ⟨f, hf, h.1⟩, h.2⟩

end Nameless

namespace Ty

theorem mem_freeNames_nameless (t : Ty) (xs : List String) (y : String) :
    y ∈ (t.nameless xs).freeNames ↔ y ∈ t.free ∧ y ∉ xs := by
  induction t using Ty.induction generalizing xs with
  | name line x =>
    by_cases hx : x ∈ xs
    · simp only [nameless, if_pos hx, Nameless.freeNames, free, List.mem_singleton]
      constructor
      · intro h
        cases h
      · rintro ⟨rfl, hy⟩
        exact absurd hx hy
    · simp only [nameless, if_neg hx, Nameless.freeNames, free, List.mem_singleton]
      constructor
      · rintro rfl
        exact ⟨rfl, hx⟩
      · exact fun h => h.1
  | all line x bounds body ih =>
    simp only [nameless, Nameless.freeNames, ih, free, List.mem_filter, List.mem_cons, not_or,
      decide_eq_true_eq, and_assoc]
  | arrow line dom cod ihd ihc | app line fn arg ihd ihc =>
    simp only [nameless, Nameless.freeNames, List.mem_append, ihd, ihc, free, or_and_right]
  | list line elem ih => exact ih xs
  | emptyList => simp [nameless, Nameless.freeNames, free]
  | record line fields ih =>
    simp only [nameless, Nameless.freeNames, namelessFields_eq, Nameless.mem_freeNamesFields,
      List.mem_map, free, mem_freeFields]
    constructor
    · rintro ⟨_, ⟨f, hf, rfl⟩, hy⟩
      have hyf := (ih f hf xs).mp hy
      exact ⟨⟨f, hf, hyf.1⟩, hyf.2⟩
    · rintro ⟨⟨f, hf, hyf⟩, hy⟩
      exact ⟨_, ⟨f, hf, rfl⟩, (ih f hf xs).mpr ⟨hyf, hy⟩⟩

theorem mem_free_iff_nameless (t : Ty) (y : String) :
    y ∈ t.free ↔ y ∈ (t.nameless []).freeNames := by
  simp [mem_freeNames_nameless]

/-- The name that a renaming gives to `w`. -/
def renamed (ρ : List (String × String)) (w : String) : String := (ρ.lookup w).getD w

/-- A substitution of `new` for `x` on its way, with the renaming `ρ` and the pair `σ` still to
be replaced. It has entered quantifiers over `xs`, which are called `ys` in the result; names
were old at `k₀` when it started, and the counter is at `k`. -/
structure Underway (k₀ : Nat) (x : String) (new : Ty) (xs ys : List String)
    (ρ : List (String × String)) (σ : Option (String × Ty)) (k : Nat) : Prop where
  le : k₀ ≤ k
  old : ∀ w ∈ xs, OldName k₀ w
  inside : ∀ w ∈ xs, renamed ρ w ∈ ys ∧ ys.idxOf (renamed ρ w) = xs.idxOf w
  kept : ∀ w ∈ xs, ∀ y t, σ = some (y, t) → renamed ρ w ≠ y
  outside : ∀ w, w ∉ xs → ρ.lookup w = none
  apart : ∀ w, w ∉ xs → OldName k₀ w → w ∉ ys
  target : σ = some (x, new) ∨ (σ = none ∧ x ∈ xs)
  closed : σ = some (x, new) → ∀ y ∈ ys, y ∉ new.free
  drawn : ∀ p ∈ ρ, ¬OldName k₀ p.2 ∧ OldName k p.2

namespace Underway

variable {k₀ k : Nat} {x : String} {new : Ty} {xs ys : List String}
  {ρ : List (String × String)} {σ : Option (String × Ty)}

theorem start (k : Nat) (x : String) (new : Ty) :
    Underway k x new [] [] [] (some (x, new)) k where
  le := le_refl k
  old := by simp
  inside := by simp
  kept := by simp
  outside := by simp
  apart := by simp
  target := Or.inl rfl
  closed := by simp
  drawn := by simp

theorem mono (h : Underway k₀ x new xs ys ρ σ k) {k' : Nat} (hk : k ≤ k') :
    Underway k₀ x new xs ys ρ σ k' :=
  { h with
    le := h.le.trans hk
    drawn := fun p hp => ⟨(h.drawn p hp).1, (h.drawn p hp).2.mono hk⟩ }

theorem renamed_erase_self (ρ : List (String × String)) (y : String) :
    renamed (ρ.filter (·.1 ≠ y)) y = y := by
  have h := Assoc.lookup_erase_self y ρ
  unfold Assoc.erase at h
  rw [renamed, h, Option.getD_none]

theorem renamed_erase_of_ne (ρ : List (String × String)) {w y : String} (hw : w ≠ y) :
    renamed (ρ.filter (·.1 ≠ y)) w = renamed ρ w := by
  have h := Assoc.lookup_erase_of_ne ρ hw
  unfold Assoc.erase at h
  rw [renamed, h, renamed]

/-- A renaming gives a name that is new, or leaves the name. -/
theorem renamed_cases (h : Underway k₀ x new xs ys ρ σ k) (w : String) :
    renamed ρ w = w ∨ (¬OldName k₀ (renamed ρ w) ∧ OldName k (renamed ρ w)) := by
  unfold renamed
  cases hl : ρ.lookup w with
  | none => exact Or.inl rfl
  | some z =>
    obtain ⟨l₁, l₂, hρ, -⟩ := List.lookup_eq_some_iff.mp hl
    exact Or.inr (h.drawn (w, z) (by simp [hρ]))

theorem renamed_ne_old (h : Underway k₀ x new xs ys ρ σ k) {w y : String} (hw : w ≠ y)
    (hy : OldName k₀ y) : renamed ρ w ≠ y := by
  rcases h.renamed_cases w with he | he
  · rw [he]
    exact hw
  · exact fun heq => he.1 (heq ▸ hy)

theorem outside_erase (h : Underway k₀ x new xs ys ρ σ k) (y w : String) (hw : w ∉ y :: xs) :
    (ρ.filter (·.1 ≠ y)).lookup w = none := by
  have hne : w ≠ y := fun he => hw (he ▸ List.mem_cons_self)
  have hl := Assoc.lookup_erase_of_ne ρ hne
  unfold Assoc.erase at hl
  rw [hl]
  exact h.outside w fun hm => hw (List.mem_cons_of_mem y hm)

theorem drawn_erase (h : Underway k₀ x new xs ys ρ σ k) (y : String) :
    ∀ p ∈ ρ.filter (·.1 ≠ y), ¬OldName k₀ p.2 ∧ OldName k p.2 :=
  fun p hp => h.drawn p (List.mem_of_mem_filter hp)

/-- Under a quantifier that keeps its name, positions agree. -/
theorem inside_keep (h : Underway k₀ x new xs ys ρ σ k) {y : String} (hy : OldName k₀ y) :
    ∀ w ∈ y :: xs, renamed (ρ.filter (·.1 ≠ y)) w ∈ y :: ys ∧
      (y :: ys).idxOf (renamed (ρ.filter (·.1 ≠ y)) w) = (y :: xs).idxOf w := by
  intro w hw
  by_cases hwy : w = y
  · rw [hwy, renamed_erase_self]
    simp
  · have hwx : w ∈ xs := by simpa [hwy] using hw
    have hne : renamed ρ w ≠ y := h.renamed_ne_old hwy hy
    obtain ⟨hmem, hidx⟩ := h.inside w hwx
    rw [renamed_erase_of_ne ρ hwy]
    refine ⟨List.mem_cons_of_mem y hmem, ?_⟩
    rw [List.idxOf_cons_ne _ hne.symm, List.idxOf_cons_ne _ (Ne.symm hwy), hidx]

theorem apart_keep (h : Underway k₀ x new xs ys ρ σ k) {y : String} :
    ∀ w, w ∉ y :: xs → OldName k₀ w → w ∉ y :: ys := by
  intro w hw hold hmem
  rcases List.mem_cons.mp hmem with he | hm
  · exact hw (he ▸ List.mem_cons_self)
  · exact h.apart w (fun hx => hw (List.mem_cons_of_mem y hx)) hold hm

/-- Under a quantifier that hides `x`, or where `x` is hidden already. -/
theorem hide (h : Underway k₀ x new xs ys ρ σ k) {y : String} (hy : OldName k₀ y)
    (hx : x ∈ y :: xs) : Underway k₀ x new (y :: xs) (y :: ys) (ρ.filter (·.1 ≠ y)) none k where
  le := h.le
  old := List.forall_mem_cons.mpr ⟨hy, h.old⟩
  inside := h.inside_keep hy
  kept := by simp
  outside := h.outside_erase y
  apart := h.apart_keep
  target := Or.inr ⟨rfl, hx⟩
  closed := by simp
  drawn := h.drawn_erase y

/-- Under a quantifier that captures nothing. -/
theorem keep (h : Underway k₀ x new xs ys ρ (some (x, new)) k) {y : String} (hy : OldName k₀ y)
    (hyx : y ≠ x) (hyn : y ∉ new.free) :
    Underway k₀ x new (y :: xs) (y :: ys) (ρ.filter (·.1 ≠ y)) (some (x, new)) k where
  le := h.le
  old := List.forall_mem_cons.mpr ⟨hy, h.old⟩
  inside := h.inside_keep hy
  kept := by
    intro w hw z t hz
    obtain ⟨rfl, rfl⟩ : x = z ∧ new = t := by simpa using hz
    by_cases hwy : w = y
    · rw [hwy, renamed_erase_self]
      exact hyx
    · rw [renamed_erase_of_ne ρ hwy]
      exact h.kept w (by simpa [hwy] using hw) _ _ rfl
  outside := h.outside_erase y
  apart := h.apart_keep
  target := Or.inl rfl
  closed := by
    intro _ z hz
    rcases List.mem_cons.mp hz with rfl | hz
    · exact hyn
    · exact h.closed rfl z hz
  drawn := h.drawn_erase y

theorem renamed_cons_self (ρ : List (String × String)) (y z : String) :
    renamed ((y, z) :: ρ) y = z := by
  simp [renamed]

theorem renamed_cons_of_ne (ρ : List (String × String)) {w y : String} (z : String)
    (hw : w ≠ y) : renamed ((y, z) :: ρ) w = renamed ρ w := by
  rw [renamed, Assoc.lookup_cons_if, if_neg hw, renamed]

/-- A name in the result so far differs from the one that is drawn next. -/
theorem renamed_ne_fresh (h : Underway k₀ x new xs ys ρ σ k) {w : String} (hw : w ∈ xs)
    (y : String) : renamed ρ w ≠ freshName y (k + 1) := by
  rcases h.renamed_cases w with he | he
  · rw [he]
    exact ((h.old w hw).mono h.le).ne_freshName y
  · exact he.2.ne_freshName y

/-- Under a quantifier that gets a fresh name. -/
theorem rename (h : Underway k₀ x new xs ys ρ (some (x, new)) k) {y : String}
    (hy : OldName k₀ y) (hx : OldName k₀ x) (hn : ∀ w ∈ new.free, OldName k₀ w) :
    Underway k₀ x new (y :: xs) (freshName y (k + 1) :: ys)
      ((y, freshName y (k + 1)) :: ρ.filter (·.1 ≠ y)) (some (x, new)) (k + 1) where
  le := h.le.trans (Nat.le_succ k)
  old := List.forall_mem_cons.mpr ⟨hy, h.old⟩
  inside := by
    -- `y` and its fresh name are both in front, and no other name is renamed to the fresh one
    intro w hw
    by_cases hwy : w = y
    · rw [hwy, renamed_cons_self]
      simp
    · have hwx : w ∈ xs := by simpa [hwy] using hw
      obtain ⟨hmem, hidx⟩ := h.inside w hwx
      rw [renamed_cons_of_ne _ _ hwy, renamed_erase_of_ne ρ hwy]
      refine ⟨List.mem_cons_of_mem _ hmem, ?_⟩
      rw [List.idxOf_cons_ne _ (h.renamed_ne_fresh hwx y).symm,
        List.idxOf_cons_ne _ (Ne.symm hwy), hidx]
  kept := by
    intro w hw z t hz
    obtain ⟨rfl, rfl⟩ : x = z ∧ new = t := by simpa using hz
    by_cases hwy : w = y
    · rw [hwy, renamed_cons_self]
      exact ((hx.mono h.le).ne_freshName y).symm
    · rw [renamed_cons_of_ne _ _ hwy, renamed_erase_of_ne ρ hwy]
      exact h.kept w (by simpa [hwy] using hw) _ _ rfl
  outside := by
    intro w hw
    have hne : w ≠ y := fun he => hw (he ▸ List.mem_cons_self)
    rw [Assoc.lookup_cons_if, if_neg hne]
    exact h.outside_erase y w hw
  apart := by
    intro w hw hold hmem
    rcases List.mem_cons.mp hmem with he | hm
    · exact (hold.mono h.le).ne_freshName y he
    · exact h.apart w (fun hx => hw (List.mem_cons_of_mem y hx)) hold hm
  target := Or.inl rfl
  -- the fresh name is not free in `new`: all names there are old
  closed := by
    intro _ z hz
    rcases List.mem_cons.mp hz with rfl | hz
    · exact fun hf => ((hn _ hf).mono h.le).ne_freshName y rfl
    · exact h.closed rfl z hz
  drawn := by
    intro p hp
    rcases List.mem_cons.mp hp with rfl | hp
    · exact ⟨not_oldName_freshName y (Nat.lt_succ_of_le h.le), oldName_freshName y (k + 1)⟩
    · have hd := h.drawn_erase y p hp
      exact ⟨hd.1, hd.2.mono (Nat.le_succ k)⟩

end Underway

/-- What substitution does at a quantifier: the name, renaming and pair that it takes inside, and
the counter there. -/
inductive Entered (x : String) (ρ : List (String × String)) (σ : Option (String × Ty)) (k : Nat) :
    String → List (String × String) → Option (String × Ty) → Nat → Prop
  | hidden (h : σ = none ∨ ∃ new, σ = some (x, new)) :
      Entered x ρ σ k x (ρ.filter (·.1 ≠ x)) none k
  | kept (y : String) (new : Ty) (hσ : σ = some (y, new)) (hxy : x ≠ y) (hx : x ∉ new.free) :
      Entered x ρ σ k x (ρ.filter (·.1 ≠ x)) σ k
  | renamed (y : String) (new : Ty) (hσ : σ = some (y, new)) (hxy : x ≠ y) (hx : x ∈ new.free) :
      Entered x ρ σ k (freshName x (k + 1)) ((x, freshName x (k + 1)) :: ρ.filter (·.1 ≠ x)) σ
        (k + 1)

theorem run_substIn_all (ρ : List (String × String)) (σ : Option (String × Ty)) (k : Nat)
    (line : Option Nat) (x : String) (bounds : List String) (body : Ty) :
    ∃ z ρ' σ' k', Entered x ρ σ k z ρ' σ' k' ∧
      ((all line x bounds body).substIn ρ σ).run k =
        (all line z bounds ((body.substIn ρ' σ').run k').1, ((body.substIn ρ' σ').run k').2) := by
  cases σ with
  | none => exact ⟨_, _, _, _, .hidden (Or.inl rfl), rfl⟩
  | some s =>
    obtain ⟨y, new⟩ := s
    by_cases hxy : x = y
    · refine ⟨_, _, _, _, .hidden (Or.inr ⟨new, hxy ▸ rfl⟩), ?_⟩
      simp only [substIn, if_pos hxy]
      rfl
    · by_cases hx : x ∈ new.free
      · refine ⟨_, _, _, _, .renamed y new rfl hxy hx, ?_⟩
        simp only [substIn, if_neg hxy, if_pos hx]
        rfl
      · refine ⟨_, _, _, _, .kept y new rfl hxy hx, ?_⟩
        simp only [substIn, if_neg hxy, if_neg hx]
        rfl

theorem run_substIn_arrow (ρ : List (String × String)) (σ : Option (String × Ty)) (k : Nat)
    (line : Option Nat) (dom cod : Ty) :
    ((arrow line dom cod).substIn ρ σ).run k =
      (arrow line ((dom.substIn ρ σ).run k).1
          ((cod.substIn ρ σ).run ((dom.substIn ρ σ).run k).2).1,
        ((cod.substIn ρ σ).run ((dom.substIn ρ σ).run k).2).2) :=
  rfl

theorem run_substIn_app (ρ : List (String × String)) (σ : Option (String × Ty)) (k : Nat)
    (line : Option Nat) (fn arg : Ty) :
    ((app line fn arg).substIn ρ σ).run k =
      (app line ((fn.substIn ρ σ).run k).1 ((arg.substIn ρ σ).run ((fn.substIn ρ σ).run k).2).1,
        ((arg.substIn ρ σ).run ((fn.substIn ρ σ).run k).2).2) :=
  rfl

theorem run_substFields_cons (ρ : List (String × String)) (σ : Option (String × Ty)) (k : Nat)
    (f : String × Ty) (fields : List (String × Ty)) :
    (substFields ρ σ (f :: fields)).run k =
      ((f.1, ((f.2.substIn ρ σ).run k).1) ::
          ((substFields ρ σ fields).run ((f.2.substIn ρ σ).run k).2).1,
        ((substFields ρ σ fields).run ((f.2.substIn ρ σ).run k).2).2) :=
  rfl

/-- Each field of the result comes from a field of the record, at some counter on the way. -/
theorem mem_substFields (ρ : List (String × String)) (σ : Option (String × Ty)) (k : Nat)
    (fields : List (String × Ty))
    (hk : ∀ f ∈ fields, ∀ j, j ≤ ((f.2.substIn ρ σ).run j).2) :
    k ≤ ((substFields ρ σ fields).run k).2 ∧
      ∀ g ∈ ((substFields ρ σ fields).run k).1, ∃ f ∈ fields, ∃ j, k ≤ j ∧
        g = (f.1, ((f.2.substIn ρ σ).run j).1) ∧
        ((f.2.substIn ρ σ).run j).2 ≤ ((substFields ρ σ fields).run k).2 := by
  induction fields generalizing k with
  | nil => exact ⟨le_refl k, fun g hg => nomatch hg⟩
  | cons f fields ih =>
    have hf := hk f List.mem_cons_self k
    obtain ⟨hle, hmem⟩ := ih ((f.2.substIn ρ σ).run k).2 fun g hg =>
      hk g (List.mem_cons_of_mem f hg)
    rw [run_substFields_cons]
    refine ⟨hf.trans hle, fun g hg => ?_⟩
    rcases List.mem_cons.mp hg with rfl | hg
    · exact ⟨f, List.mem_cons_self, k, le_refl k, rfl, hle⟩
    · obtain ⟨f', hf', j, hj, hg, hend⟩ := hmem g hg
      exact ⟨f', List.mem_cons_of_mem f hf', j, hf.trans hj, hg, hend⟩

theorem substIn_drawn_le (t : Ty) (ρ : List (String × String)) (σ : Option (String × Ty))
    (k : Nat) : k ≤ ((t.substIn ρ σ).run k).2 := by
  induction t using Ty.induction generalizing ρ σ k with
  | name line x | emptyList => exact le_refl k
  | all line x bounds body ih =>
    obtain ⟨z, ρ', σ', k', hin, hrun⟩ := run_substIn_all ρ σ k line x bounds body
    rw [hrun]
    have hk : k ≤ k' := by cases hin <;> omega
    exact hk.trans (ih ρ' σ' k')
  | arrow line dom cod ihd ihc =>
    rw [run_substIn_arrow]
    exact (ihd ρ σ k).trans (ihc ρ σ _)
  | app line fn arg ihf iha =>
    rw [run_substIn_app]
    exact (ihf ρ σ k).trans (iha ρ σ _)
  | list line elem ih => exact ih ρ σ k
  | record line fields ih =>
    exact (mem_substFields ρ σ k fields fun f hf j => ih f hf ρ σ j).1

theorem substName_of_ne (ρ : List (String × String)) (σ : Option (String × Ty))
    (line : Option Nat) (w : String) (h : ∀ y t, σ = some (y, t) → renamed ρ w ≠ y) :
    ∃ line', substName ρ σ line w = name line' (renamed ρ w) := by
  unfold substName
  unfold renamed at h ⊢
  cases hl : ρ.lookup w with
  | none =>
    rw [hl] at h
    cases σ with
    | none => exact ⟨line, rfl⟩
    | some s => exact ⟨line, if_neg (h s.1 s.2 rfl)⟩
  | some z =>
    rw [hl] at h
    cases σ with
    | none => exact ⟨none, rfl⟩
    | some s => exact ⟨none, if_neg (h s.1 s.2 rfl)⟩

theorem substName_of_eq (ρ : List (String × String)) (line : Option Nat) (w : String) (new : Ty) :
    substName ρ (some (renamed ρ w, new)) line w = new := by
  unfold substName renamed
  cases ρ.lookup w with
  | none | some z => exact if_pos rfl

theorem nameless_substName {k₀ k : Nat} {x : String} {new : Ty} {xs ys : List String}
    {ρ : List (String × String)} {σ : Option (String × Ty)} (h : Underway k₀ x new xs ys ρ σ k)
    (line : Option Nat) (w : String) (hw : OldName k₀ w) :
    (substName ρ σ line w).nameless ys =
      ((name line w).nameless xs).subst x (new.nameless []) := by
  by_cases hx : w ∈ xs
  · obtain ⟨line', hname⟩ := substName_of_ne ρ σ line w (h.kept w hx)
    obtain ⟨hmem, hidx⟩ := h.inside w hx
    rw [hname, nameless, nameless, if_pos hmem, if_pos hx, hidx, Nameless.subst]
  · have hl : renamed ρ w = w := by rw [renamed, h.outside w hx, Option.getD_none]
    rw [nameless, if_neg hx, Nameless.subst]
    by_cases hwx : w = x
    · -- the name itself: nothing around it hides it
      have hσ : σ = some (x, new) := h.target.resolve_right fun hn => hx (hwx ▸ hn.2)
      have hsub : substName ρ σ line w = new := by
        have hrn := substName_of_eq ρ line w new
        rwa [hl, hwx, ← hσ, ← hwx] at hrn
      rw [hsub, if_pos hwx]
      exact nameless_eq_nil new ys (h.closed hσ)
    · have hne : ∀ y t, σ = some (y, t) → renamed ρ w ≠ y := by
        intro y t hσ
        rcases h.target with ht | ht
        · obtain ⟨rfl, rfl⟩ : x = y ∧ new = t := by simpa [ht] using hσ
          rwa [hl]
        · simp [ht.1] at hσ
      obtain ⟨line', hname⟩ := substName_of_ne ρ σ line w hne
      rw [hname, hl, nameless, if_neg (h.apart w hx hw), if_neg hwx]

/-- Substitution commutes with taking the nameless form, at every point on its way. -/
theorem nameless_substIn (t : Ty) {k₀ k : Nat} {x : String} {new : Ty} {xs ys : List String}
    {ρ : List (String × String)} {σ : Option (String × Ty)} (h : Underway k₀ x new xs ys ρ σ k)
    (hx : OldName k₀ x) (hn : ∀ w ∈ new.free, OldName k₀ w) (ht : ∀ w ∈ t.names, OldName k₀ w) :
    ((t.substIn ρ σ).run k).1.nameless ys = (t.nameless xs).subst x (new.nameless []) := by
  induction t using Ty.induction generalizing xs ys ρ σ k with
  | name line w => exact nameless_substName h line w (ht w (by simp [names]))
  | all line w bounds body ih =>
    have hw : OldName k₀ w := ht w List.mem_cons_self
    obtain ⟨z, ρ', σ', k', hin, hrun⟩ := run_substIn_all ρ σ k line w bounds body
    -- the quantifier hides the variable, keeps its name or gets a fresh one
    have hin' : Underway k₀ x new (w :: xs) (z :: ys) ρ' σ' k' := by
      cases hin with
      | hidden hσ =>
        refine h.hide hw ?_
        rcases h.target with htar | htar
        · rcases hσ with hσ | ⟨new', hσ⟩
          · simp [htar] at hσ
          · obtain ⟨rfl, -⟩ : x = w ∧ new = new' := by simpa [htar] using hσ
            exact List.mem_cons_self
        · exact List.mem_cons_of_mem w htar.2
      | kept y new' hσ hwy hwn =>
        have htar := h.target.resolve_right fun htar => by simp [htar.1] at hσ
        obtain ⟨rfl, rfl⟩ : x = y ∧ new = new' := by simpa [htar] using hσ
        subst hσ
        exact h.keep hw hwy hwn
      | renamed y new' hσ hwy hwn =>
        have htar := h.target.resolve_right fun htar => by simp [htar.1] at hσ
        obtain ⟨rfl, rfl⟩ : x = y ∧ new = new' := by simpa [htar] using hσ
        subst hσ
        exact h.rename hw hx hn
    rw [hrun, nameless, nameless, Nameless.subst,
      ih hin' fun v hv => ht v (List.mem_cons_of_mem w hv)]
  | arrow line dom cod ihd ihc =>
    have hd := ihd h fun w hw => ht w (List.mem_append_left _ hw)
    have hc := ihc (h.mono (substIn_drawn_le dom ρ σ k)) fun w hw =>
      ht w (List.mem_append_right _ hw)
    rw [run_substIn_arrow, nameless, nameless, Nameless.subst, hd, hc]
  | app line fn arg ihf iha =>
    have hf := ihf h fun w hw => ht w (List.mem_append_left _ hw)
    have ha := iha (h.mono (substIn_drawn_le fn ρ σ k)) fun w hw =>
      ht w (List.mem_append_right _ hw)
    rw [run_substIn_app, nameless, nameless, Nameless.subst, hf, ha]
  | list line elem ih => exact congrArg Nameless.list (ih h ht)
  | emptyList => rfl
  | record line fields ih =>
    -- fields come in order, each at the counter that the one before leaves
    have htf : ∀ w ∈ namesFields fields, OldName k₀ w := ht
    suffices hfields : namelessFields ys ((substFields ρ σ fields).run k).1 =
        Nameless.substFields (namelessFields xs fields) x (new.nameless []) from
      congrArg Nameless.record hfields
    clear ht
    induction fields generalizing k with
    | nil => rfl
    | cons f fields ihs =>
      have hf := ih f List.mem_cons_self h fun w hw => htf w (List.mem_append_left _ hw)
      have hfs := ihs (fun g hg => ih g (List.mem_cons_of_mem f hg))
        (h.mono (substIn_drawn_le f.2 ρ σ k)) fun w hw => htf w (List.mem_append_right _ hw)
      rw [run_substFields_cons]
      simp only [namelessFields, Nameless.substFields, hf]
      rw [hfs]

/-- Substitution that draws names from `k` on is substitution of nameless forms. -/
theorem nameless_subst (t : Ty) (x : String) (new : Ty) (k : Nat) (hx : OldName k x)
    (hn : ∀ w ∈ new.free, OldName k w) (ht : ∀ w ∈ t.names, OldName k w) :
    ((t.subst x new).run k).1.nameless [] = (t.nameless []).subst x (new.nameless []) :=
  nameless_substIn t (Underway.start k x new) hx hn ht

/-- Whatever holds of the names of a type, of its renaming and of the new type, and of every name
the substitution may draw, holds of the names of the result. -/
theorem forall_names_substIn (t : Ty) {P : String → Prop} {ρ : List (String × String)}
    {σ : Option (String × Ty)} {k : Nat} (ht : ∀ w ∈ t.names, P w) (hρ : ∀ p ∈ ρ, P p.2)
    (hσ : ∀ y new, σ = some (y, new) → ∀ w ∈ new.names, P w)
    (hfresh : ∀ base j, k < j → j ≤ ((t.substIn ρ σ).run k).2 → P (freshName base j)) :
    ∀ w ∈ ((t.substIn ρ σ).run k).1.names, P w := by
  induction t using Ty.induction generalizing ρ σ k with
  | name line x =>
    intro w hw
    have hr : P (renamed ρ x) := by
      unfold renamed
      cases hl : ρ.lookup x with
      | none => exact ht x (by simp [names])
      | some z => exact hρ (x, z) (Assoc.mem_of_lookup hl)
    -- the name is replaced by the new type, or it stays under its renaming
    by_cases hs : ∃ new, σ = some (renamed ρ x, new)
    · obtain ⟨new, rfl⟩ := hs
      apply hσ _ new rfl w
      rw [← substName_of_eq ρ line x new]
      exact hw
    · obtain ⟨line', hname⟩ := substName_of_ne ρ σ line x fun y new hy he => hs ⟨new, he ▸ hy⟩
      have hw' : w ∈ (name line' (renamed ρ x)).names := hname ▸ hw
      rw [names, List.mem_singleton] at hw'
      exact hw' ▸ hr
  | all line x bounds body ih =>
    obtain ⟨hx, hbody⟩ := List.forall_mem_cons.mp ht
    obtain ⟨z, ρ', σ', k', hin, hrun⟩ := run_substIn_all ρ σ k line x bounds body
    have herase : ∀ p ∈ ρ.filter (·.1 ≠ x), P p.2 := fun p hp => hρ p (List.mem_of_mem_filter hp)
    rw [hrun] at hfresh ⊢
    cases hin with
    | hidden _ => exact List.forall_mem_cons.mpr ⟨hx, ih hbody herase (by simp) hfresh⟩
    | kept y new _ _ _ => exact List.forall_mem_cons.mpr ⟨hx, ih hbody herase hσ hfresh⟩
    | renamed y new _ _ _ =>
      have hz : P (freshName x (k + 1)) :=
        hfresh x (k + 1) (Nat.lt_succ_self k) (substIn_drawn_le body _ _ _)
      exact List.forall_mem_cons.mpr ⟨hz, ih hbody (List.forall_mem_cons.mpr ⟨hz, herase⟩) hσ
        fun base j hj => hfresh base j (by omega)⟩
  | arrow line dom cod ihd ihc | app line dom cod ihd ihc =>
    obtain ⟨hd, hc⟩ := List.forall_mem_append.mp ht
    have hk := substIn_drawn_le dom ρ σ k
    exact List.forall_mem_append.mpr
      ⟨ihd hd hρ hσ fun base j hj hle => hfresh base j hj (hle.trans (substIn_drawn_le cod ρ σ _)),
        ihc hc hρ hσ fun base j hj => hfresh base j (hk.trans_lt hj)⟩
  | list line elem ih => exact ih ht hρ hσ hfresh
  | emptyList => exact fun w hw => nomatch hw
  | record line fields ih =>
    intro w hw
    obtain ⟨g, hg, hwg⟩ := mem_namesFields.mp hw
    obtain ⟨f, hf, j, hj, rfl, hend⟩ :=
      (mem_substFields ρ σ k fields fun f _ j => substIn_drawn_le f.2 ρ σ j).2 g hg
    have htf : ∀ w ∈ f.2.names, P w := fun v hv => ht v (mem_namesFields.mpr ⟨f, hf, hv⟩)
    exact ih f hf htf hρ hσ (fun base i hi hle => hfresh base i (by omega) (hle.trans hend)) w hwg

/-- The names of the result are old when the substitution is done. -/
theorem names_substIn (t : Ty) (ρ : List (String × String)) (σ : Option (String × Ty)) (k : Nat)
    (ht : ∀ w ∈ t.names, OldName k w) (hρ : ∀ p ∈ ρ, OldName k p.2)
    (hσ : ∀ y new, σ = some (y, new) → ∀ w ∈ new.names, OldName k w) :
    ∀ w ∈ ((t.substIn ρ σ).run k).1.names, OldName ((t.substIn ρ σ).run k).2 w := by
  have hk := substIn_drawn_le t ρ σ k
  exact forall_names_substIn t (fun w hw => (ht w hw).mono hk) (fun p hp => (hρ p hp).mono hk)
    (fun y new hy w hw => (hσ y new hy w hw).mono hk)
    fun base j _ hj => (oldName_freshName base j).mono hj

end Ty

end TraitCalculus
