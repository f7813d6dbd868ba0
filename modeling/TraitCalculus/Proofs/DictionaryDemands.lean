import Mathlib
import TraitCalculus.Program.Dictionary
import TraitCalculus.Proofs.AlphaEquivalence

/-! The dictionaries that values of a type demand. The demand of a type keeps the bounds of its
quantifiers, and of the rest only what leads to them. All types without bounds have the same demand,
so a type argument without bounds leaves the demand of a type as it is. -/
namespace TraitCalculus

/-- What is to be known of an expression for dictionaries to be passed in the right places. -/
inductive Demand where
  /-- No dictionary is taken anywhere. -/
  | plain
  /-- A dictionary of the trait. -/
  | dict (trait : String)
  | fn (dom cod : Demand)
  | list (elem : Demand)
  /-- A record with a field, and the demand of the other fields. -/
  | field (label : String) (demand rest : Demand)
deriving Repr, DecidableEq

namespace Demand

def isDict : Demand → Bool
  | dict _ => true
  | _ => false

/-- Functions between plain parts are plain. -/
def arrow : Demand → Demand → Demand
  | plain, plain => plain
  | S, T => fn S T

def listOf : Demand → Demand
  | plain => plain
  | S => list S

/-- The demand of a field. All fields that are not listed are plain. -/
def get (label : String) : Demand → Demand
  | field l S rest => if label = l then S else rest.get label
  | _ => plain

/-- Puts a field in front, unless it is plain and says nothing. -/
def front (R : Demand) (label : String) (S : Demand) : Demand :=
  if S = plain ∧ R.get label = plain then R else field label S R

/-- Adds a field, in the order of labels. -/
def set : Demand → String → Demand → Demand
  | field l T rest, label, S =>
    if l < label then field l T (rest.set label S) else (field l T rest).front label S
  | R, label, S => R.front label S

/-- The demand of a record. The first field of a label counts. -/
def ofFields (fields : List (String × Demand)) : Demand :=
  fields.foldr (fun f R => R.set f.1 f.2) plain

/-- Takes a dictionary for each of the traits. -/
def taking (traits : List String) (S : Demand) : Demand :=
  traits.foldr (fun trait T => fn (dict trait) T) S

theorem arrow_plain : arrow plain plain = plain := rfl

theorem arrow_injective {S S' T T' : Demand} (h : arrow S T = arrow S' T') : S = S' ∧ T = T' := by
  unfold arrow at h
  split at h
  · split at h
    · exact ⟨rfl, rfl⟩
    · cases h
  · split at h
    · cases h
    · exact fn.inj h

theorem listOf_injective {S T : Demand} (h : listOf S = listOf T) : S = T := by
  unfold listOf at h
  split at h <;> split at h <;> simp_all

theorem get_front (R : Demand) (label : String) (S : Demand) (l : String) :
    (R.front label S).get l = if l = label then S else R.get l := by
  unfold front
  split_ifs with hplain hl hl
  · rw [hl, hplain.1, hplain.2]
  · rfl
  · rw [get, if_pos hl]
  · rw [get, if_neg hl]

theorem get_set (R : Demand) (label : String) (S : Demand) (l : String) :
    (R.set label S).get l = if l = label then S else R.get l := by
  induction R with
  | field m T rest _ ih =>
    rw [set]
    split_ifs with hlt hl hl
    · have hne : l ≠ m := by
        rintro rfl
        exact String.lt_irrefl l (hl ▸ hlt)
      rw [get, if_neg hne, ih, if_pos hl]
    · rw [get, get, ih, if_neg hl]
    · rw [get_front, if_pos hl]
    · rw [get_front, if_neg hl]
  | _ => exact get_front _ label S l

theorem isDict_arrow (S T : Demand) : (arrow S T).isDict = false := by
  unfold arrow
  split <;> rfl

theorem isDict_listOf (S : Demand) : (listOf S).isDict = false := by
  unfold listOf
  split <;> rfl

theorem isDict_set {R : Demand} (h : R.isDict = false) (label : String) (S : Demand) :
    (R.set label S).isDict = false := by
  have hfront (R : Demand) (h : R.isDict = false) : (R.front label S).isDict = false := by
    unfold front
    split_ifs
    · exact h
    · rfl
  cases R with
  | field m T rest =>
    rw [set]
    split_ifs
    · rfl
    · exact hfront _ h
  | _ => exact hfront _ h

theorem isDict_ofFields (fields : List (String × Demand)) : (ofFields fields).isDict = false := by
  induction fields with
  | nil => rfl
  | cons f fields ih => exact isDict_set ih f.1 f.2

theorem get_ofFields (fields : List (String × Demand)) (label : String) :
    (ofFields fields).get label = (fields.lookup label).getD plain := by
  induction fields with
  | nil => rfl
  | cons f fields ih =>
    rw [ofFields, List.foldr_cons, get_set, Assoc.lookup_cons_if]
    split_ifs with hl
    · rfl
    · exact ih

theorem isDict_taking (traits : List String) {S : Demand} (h : S.isDict = false) :
    (taking traits S).isDict = false := by
  cases traits with
  | nil => exact h
  | cons trait traits => rfl

end Demand

namespace Nameless

mutual

def demand : Nameless → Demand
  | bound _ => .plain
  | free _ => .plain
  | all bounds body => .taking bounds body.demand
  | arrow dom cod => .arrow dom.demand cod.demand
  | app _ _ => .plain
  | list elem => .listOf elem.demand
  | emptyList => .plain
  | record fields => demandFields fields

def demandFields : List (String × Nameless) → Demand
  | [] => .plain
  | (label, t) :: fields => (demandFields fields).set label t.demand

end

/-- A new type that takes no dictionaries changes no demand. -/
theorem demand_subst (t : Nameless) (x : String) {new : Nameless} (h : new.demand = .plain) :
    (t.subst x new).demand = t.demand := by
  induction t using Nameless.rec (motive_2 := fun fields =>
      demandFields (substFields fields x new) = demandFields fields)
    (motive_3 := fun f => (f.2.subst x new).demand = f.2.demand) with
  | bound i => rfl
  | free y =>
    rw [subst]
    split_ifs
    · exact h
    · rfl
  | all bounds body ih | list elem ih | record fields ih => rw [subst, demand, ih, demand]
  | arrow dom cod ihd ihc => rw [subst, demand, ihd, ihc, demand]
  | app fn arg => rfl
  | emptyList => rfl
  | nil => rfl
  | cons f fields ihf ihs => rw [substFields, demandFields, ihf, ihs, demandFields]
  | mk label t ih => exact ih

end Nameless

namespace Ty

mutual

/-- Where a value of the type takes dictionaries. -/
def demand : Ty → Demand
  | name _ _ => .plain
  | all _ _ bounds body => .taking bounds body.demand
  | arrow _ dom cod => .arrow dom.demand cod.demand
  | app _ _ _ => .plain
  | list _ elem => .listOf elem.demand
  | emptyList => .plain
  | record _ fields => demandFields fields

def demandFields : List (String × Ty) → Demand
  | [] => .plain
  | (label, t) :: fields => (demandFields fields).set label t.demand

end

theorem demandFields_eq (fields : List (String × Ty)) :
    demandFields fields = .ofFields (fields.map fun f => (f.1, f.2.demand)) := by
  induction fields with
  | nil => rfl
  | cons f fields ih =>
    rw [demandFields, ih]
    rfl

theorem isDict_demand (t : Ty) : t.demand.isDict = false := by
  induction t using Ty.induction with
  | name line x | app line fn arg _ _ | emptyList => rfl
  | all line x bounds body ih => exact Demand.isDict_taking bounds ih
  | arrow line dom cod _ _ => exact Demand.isDict_arrow _ _
  | list line elem _ => exact Demand.isDict_listOf _
  | record line fields _ =>
    rw [demand, demandFields_eq]
    exact Demand.isDict_ofFields _

theorem get_demandFields {fields : List (String × Ty)} {label : String} {t : Ty}
    (h : fields.lookup label = some t) : (demandFields fields).get label = t.demand := by
  rw [demandFields_eq, Demand.get_ofFields, Assoc.lookup_map, h]
  rfl

theorem demand_nameless (t : Ty) (xs : List String) : (t.nameless xs).demand = t.demand := by
  induction t using Ty.induction generalizing xs with
  | name line x =>
    rw [nameless]
    split_ifs <;> rfl
  | all line x bounds body ih | list line elem ih => rw [nameless, Nameless.demand, ih, demand]
  | arrow line dom cod ihd ihc => rw [nameless, Nameless.demand, ihd, ihc, demand]
  | app line fn arg _ _ => rfl
  | emptyList => rfl
  | record line fields ih =>
    rw [nameless, Nameless.demand, demand]
    induction fields with
    | nil => rfl
    | cons f fields ihs =>
      obtain ⟨hf, hfs⟩ := List.forall_mem_cons.mp ih
      rw [namelessFields, Nameless.demandFields, demandFields, hf, ihs hfs]

/-- Instances of a quantified type have the demand of its body, for type arguments that take no
dictionaries. -/
theorem demand_instance {body t u : Ty} {x : String} (ht : t.demand = .plain)
    (hu : u.nameless [] = (body.nameless []).subst x (t.nameless [])) : u.demand = body.demand := by
  calc
    u.demand = (u.nameless []).demand := (demand_nameless u []).symm
    _ = ((body.nameless []).subst x (t.nameless [])).demand := by rw [hu]
    _ = (body.nameless []).demand := by
      apply Nameless.demand_subst
      rw [demand_nameless, ht]
    _ = body.demand := demand_nameless body []

end Ty

end TraitCalculus
