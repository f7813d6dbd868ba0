import Mathlib
import TraitCalculus.Proofs.TypeSubstitution

/-! The meaning of a type under abbreviations, on nameless forms: each free name is looked up, and
a quantified type that is applied gets its argument in place of the variable. No name can be
captured here, so this is what resolution has to agree with. Expansion commutes with substitution:
it does not matter whether a type is put in place of a name before or after both are expanded. -/
namespace TraitCalculus

namespace Nameless

attribute [local simp] subst substFields close closeFields

mutual

/-- Moves the variables that are loose under `i` quantifiers one quantifier further out. -/
@[simp] def lift (i : Nat) : Nameless → Nameless
  | bound j => if j < i then bound j else bound (j + 1)
  | free x => free x
  | all bounds body => all bounds (body.lift (i + 1))
  | arrow dom cod => arrow (dom.lift i) (cod.lift i)
  | app fn arg => app (fn.lift i) (arg.lift i)
  | list elem => list (elem.lift i)
  | emptyList => emptyList
  | record fields => record (liftFields i fields)

@[simp] def liftFields (i : Nat) : List (String × Nameless) → List (String × Nameless)
  | [] => []
  | (label, t) :: fields => (label, t.lift i) :: liftFields i fields

end

mutual

/-- The body of a quantified type at the argument `new`, where `i` quantifiers of the body have
been entered. -/
@[simp] def apply : Nameless → Nameless → Nat → Nameless
  | bound j, new, i => if j < i then bound j else if j = i then new else bound (j - 1)
  | free x, _, _ => free x
  | all bounds body, new, i => all bounds (body.apply (new.lift 0) (i + 1))
  | arrow dom cod, new, i => arrow (dom.apply new i) (cod.apply new i)
  | app fn arg, new, i => app (fn.apply new i) (arg.apply new i)
  | list elem, new, i => list (elem.apply new i)
  | emptyList, _, _ => emptyList
  | record fields, new, i => record (applyFields fields new i)

@[simp] def applyFields : List (String × Nameless) → Nameless → Nat → List (String × Nameless)
  | [], _, _ => []
  | (label, t) :: fields, new, i => (label, t.apply new i) :: applyFields fields new i

end

mutual

/-- All variables are bound by a quantifier of the type or by one of `i` further out. -/
@[simp] def Below (i : Nat) : Nameless → Prop
  | bound j => j < i
  | free _ => True
  | all _ body => body.Below (i + 1)
  | arrow dom cod => dom.Below i ∧ cod.Below i
  | app fn arg => fn.Below i ∧ arg.Below i
  | list elem => elem.Below i
  | emptyList => True
  | record fields => BelowFields i fields

@[simp] def BelowFields (i : Nat) : List (String × Nameless) → Prop
  | [] => True
  | (_, t) :: fields => t.Below i ∧ BelowFields i fields

end

/-- The argument of an application, put into what is applied. Nothing but a quantified type takes
an argument. -/
def applied : Nameless → Nameless → Option Nameless
  | all _ body, arg => some (body.apply arg 0)
  | _, _ => none

mutual

/-- The type that a type written with abbreviations means, where `meaning` gives what a free name
stands for. -/
@[simp] def expand (meaning : String → Option Nameless) : Nameless → Option Nameless
  | bound i => some (bound i)
  | free x => meaning x
  | all bounds body => return all bounds (← body.expand meaning)
  | arrow dom cod => return arrow (← dom.expand meaning) (← cod.expand meaning)
  | app fn arg => do applied (← fn.expand meaning) (← arg.expand meaning)
  | list elem => return list (← elem.expand meaning)
  | emptyList => some emptyList
  | record fields => return record (← expandFields meaning fields)

@[simp] def expandFields (meaning : String → Option Nameless) :
    List (String × Nameless) → Option (List (String × Nameless))
  | [] => some []
  | (label, t) :: fields => return (label, ← t.expand meaning) :: (← expandFields meaning fields)

end

theorem liftFields_eq (i : Nat) (fields : List (String × Nameless)) :
    liftFields i fields = fields.map fun f => (f.1, f.2.lift i) :=
  walk_eq_map rfl (fun _ _ => rfl) fields

theorem applyFields_eq (fields : List (String × Nameless)) (new : Nameless) (i : Nat) :
    applyFields fields new i = fields.map fun f => (f.1, f.2.apply new i) := by
  induction fields with
  | nil => rfl
  | cons f fields ih => simp [ih]

theorem belowFields_iff {i : Nat} {fields : List (String × Nameless)} :
    BelowFields i fields ↔ ∀ f ∈ fields, f.2.Below i :=
  walk_iff trivial (fun _ _ => Iff.rfl) fields

namespace Below

theorem mono {t : Nameless} {i j : Nat} (h : t.Below i) (hij : i ≤ j) : t.Below j := by
  induction t using Nameless.induction generalizing i j with
  | bound m => exact lt_of_lt_of_le h hij
  | free x => trivial
  | all bounds body ih => exact ih h (Nat.succ_le_succ hij)
  | arrow dom cod ihd ihc | app fn arg ihd ihc => exact ⟨ihd h.1 hij, ihc h.2 hij⟩
  | list elem ih => exact ih h hij
  | emptyList => trivial
  | record fields ih =>
    exact belowFields_iff.mpr fun f hf => ih f hf (belowFields_iff.mp h f hf) hij

theorem lift_eq {t : Nameless} {i : Nat} (h : t.Below i) : t.lift i = t := by
  induction t using Nameless.induction generalizing i with
  | bound j => exact if_pos h
  | free x => rfl
  | all bounds body ih | list elem ih => rw [lift, ih h]
  | arrow dom cod ihd ihc | app fn arg ihd ihc => rw [lift, ihd h.1, ihc h.2]
  | emptyList => rfl
  | record fields ih =>
    rw [lift, liftFields_eq]
    congr 1
    apply (List.map_congr_left fun f hf => ?_).trans (List.map_id fields)
    rw [ih f hf (belowFields_iff.mp h f hf)]
    rfl

theorem apply_eq {t : Nameless} {i : Nat} (h : t.Below i) (new : Nameless) :
    t.apply new i = t := by
  induction t using Nameless.induction generalizing i new with
  | bound j => exact if_pos h
  | free x => rfl
  | all bounds body ih | list elem ih => rw [apply, ih h]
  | arrow dom cod ihd ihc | app fn arg ihd ihc => rw [apply, ihd h.1, ihc h.2]
  | emptyList => rfl
  | record fields ih =>
    rw [apply, applyFields_eq]
    congr 1
    apply (List.map_congr_left fun f hf => ?_).trans (List.map_id fields)
    rw [ih f hf (belowFields_iff.mp h f hf)]
    rfl

/-- A type that is put under one more quantifier, with names bound outside it. -/
theorem lift_close {t : Nameless} {i j : Nat} (h : t.Below i) (hij : i ≤ j) (xs : List String) :
    (t.close xs j).lift i = t.close xs (j + 1) := by
  induction t using Nameless.induction generalizing i j with
  | bound m => exact if_pos h
  | free x =>
    by_cases hx : x ∈ xs
    · have hge : ¬j + xs.idxOf x < i := by omega
      rw [close, close, if_pos hx, if_pos hx, lift, if_neg hge]
      congr 1
      omega
    · rw [close, close, if_neg hx, if_neg hx, lift]
  | all bounds body ih => rw [close, close, lift, ih h (Nat.succ_le_succ hij)]
  | arrow dom cod ihd ihc | app fn arg ihd ihc => rw [close, close, lift, ihd h.1 hij, ihc h.2 hij]
  | list elem ih => rw [close, close, lift, ih h hij]
  | emptyList => rfl
  | record fields ih =>
    rw [close, close, lift, liftFields_eq, closeFields_eq, closeFields_eq, List.map_map]
    congr 1
    apply List.map_congr_left
    intro f hf
    exact Prod.ext rfl (ih f hf (belowFields_iff.mp h f hf) hij)

/-- Application is substitution for the name of the quantifier, seen under quantifiers over
`xs`. -/
theorem apply_close {t new : Nameless} {i : Nat} (ht : t.Below i) (hnew : new.Below 0)
    (x : String) (xs : List String) :
    (t.close (x :: xs) i).apply (new.close xs i) i = (t.subst x new).close xs i := by
  induction t using Nameless.induction generalizing i with
  | bound j => exact if_pos ht
  | free y =>
    by_cases hx : y = x
    · subst hx
      simp
    · by_cases hy : y ∈ xs
      · -- the name counts one quantifier less once the innermost one is gone
        have hidx : (x :: xs).idxOf y = xs.idxOf y + 1 := List.idxOf_cons_ne xs (Ne.symm hx)
        have hge : ¬i + (xs.idxOf y + 1) < i := by omega
        have hne : i + (xs.idxOf y + 1) ≠ i := by omega
        rw [close, if_pos (List.mem_cons_of_mem x hy), hidx, apply, if_neg hge, if_neg hne,
          subst, if_neg hx, close, if_pos hy]
        rfl
      · have hxs : y ∉ x :: xs := List.not_mem_cons_of_ne_of_not_mem hx hy
        rw [close, if_neg hxs, apply, subst, if_neg hx, close, if_neg hy]
  | all bounds body ih =>
    rw [close, apply, lift_close hnew (Nat.zero_le i), ih ht, subst, close]
  | arrow dom cod ihd ihc | app fn arg ihd ihc =>
    rw [close, apply, ihd ht.1, ihc ht.2, subst, close]
  | list elem ih => rw [close, apply, ih ht, subst, close]
  | emptyList => rfl
  | record fields ih =>
    rw [close, apply, subst, close, closeFields_eq, applyFields_eq, substFields_eq,
      closeFields_eq, List.map_map, List.map_map]
    congr 1
    apply List.map_congr_left
    intro f hf
    exact Prod.ext rfl (ih f hf (belowFields_iff.mp ht f hf))

end Below

section Substitution

variable {x : String} {new : Nameless}

theorem lift_subst (t : Nameless) {i : Nat} (hnew : new.Below i) :
    (t.subst x new).lift i = (t.lift i).subst x new := by
  induction t using Nameless.induction generalizing i with
  | bound j =>
    rw [subst, lift]
    split_ifs
    · rfl
    · rfl
  | free y =>
    rw [subst, lift, subst]
    split_ifs
    · exact hnew.lift_eq
    · rfl
  | all bounds body ih => rw [subst, lift, lift, subst, ih (hnew.mono (Nat.le_succ i))]
  | arrow dom cod ihd ihc | app fn arg ihd ihc => rw [subst, lift, lift, subst, ihd hnew, ihc hnew]
  | list elem ih => rw [subst, lift, lift, subst, ih hnew]
  | emptyList => rfl
  | record fields ih =>
    rw [subst, lift, lift, subst, substFields_eq, liftFields_eq, liftFields_eq, substFields_eq,
      List.map_map, List.map_map]
    congr 1
    apply List.map_congr_left
    intro f hf
    exact Prod.ext rfl (ih f hf hnew)

theorem apply_subst (t arg : Nameless) {i : Nat} (hnew : new.Below 0) :
    (t.apply arg i).subst x new = (t.subst x new).apply (arg.subst x new) i := by
  induction t using Nameless.induction generalizing arg i with
  | bound j =>
    rw [apply, subst, apply]
    split_ifs
    · rfl
    · rfl
    · rfl
  | free y =>
    rw [apply, subst]
    split_ifs
    · exact ((hnew.mono (Nat.zero_le i)).apply_eq _).symm
    · rfl
  | all bounds body ih => rw [apply, subst, subst, apply, ih, lift_subst arg hnew]
  | arrow dom cod ihd ihc | app fn arg' ihd ihc => rw [apply, subst, subst, apply, ihd, ihc]
  | list elem ih => rw [apply, subst, subst, apply, ih]
  | emptyList => rfl
  | record fields ih =>
    rw [apply, subst, subst, apply, substFields_eq, applyFields_eq, applyFields_eq,
      substFields_eq, List.map_map, List.map_map]
    congr 1
    apply List.map_congr_left
    intro f hf
    exact Prod.ext rfl (ih f hf arg)

theorem applied_subst {fn arg result : Nameless} (hnew : new.Below 0)
    (h : fn.applied arg = some result) :
    (fn.subst x new).applied (arg.subst x new) = some (result.subst x new) := by
  cases fn with
  | all bounds body =>
    obtain rfl := Option.some.inj h
    exact congrArg some (apply_subst body arg hnew).symm
  | _ => cases h

/-- The substitution lemma. The names other than `x` mean the same before and after, types in
which `x` does not stand; `x` is a variable before, and the meaning of `new` stands for it after. -/
theorem expand_subst (t : Nameless) {new' t' : Nameless} {before after : String → Option Nameless}
    (hnew : new.expand after = some new') (hclosed : new'.Below 0)
    (hx : before x = some (free x))
    (hother : ∀ y u, y ≠ x → before y = some u → after y = some u ∧ x ∉ u.freeNames)
    (h : t.expand before = some t') : (t.subst x new).expand after = some (t'.subst x new') := by
  induction t using Nameless.induction generalizing t' with
  | bound i | emptyList =>
    obtain rfl := Option.some.inj h
    rfl
  | free y =>
    by_cases hy : y = x
    · subst hy
      obtain rfl := Option.some.inj (hx.symm.trans h)
      rw [subst, if_pos rfl, subst, if_pos rfl, hnew]
    · obtain ⟨hafter, hfree⟩ := hother y t' hy h
      rw [subst, if_neg hy, expand, hafter, subst_eq_self t' x new' hfree]
  | all bounds body ih | list elem ih =>
    obtain ⟨body', hbody, hret⟩ := Option.bind_eq_some_iff.mp h
    obtain rfl := Option.some.inj hret
    rw [subst, expand, ih hbody]
    rfl
  | arrow dom cod ihd ihc =>
    obtain ⟨dom', hdom, h⟩ := Option.bind_eq_some_iff.mp h
    obtain ⟨cod', hcod, hret⟩ := Option.bind_eq_some_iff.mp h
    obtain rfl := Option.some.inj hret
    rw [subst, expand, ihd hdom, ihc hcod]
    rfl
  | app fn arg ihf iha =>
    obtain ⟨fn', hfn, h⟩ := Option.bind_eq_some_iff.mp h
    obtain ⟨arg', harg, happ⟩ := Option.bind_eq_some_iff.mp h
    rw [subst, expand, ihf hfn, iha harg]
    exact applied_subst hclosed happ
  | record fields ih =>
    obtain ⟨fields', hfields, hret⟩ := Option.bind_eq_some_iff.mp h
    obtain rfl := Option.some.inj hret
    suffices hfs : expandFields after (substFields fields x new) =
        some (substFields fields' x new') by
      rw [subst, expand, hfs]
      rfl
    clear h hret
    induction fields generalizing fields' with
    | nil =>
      obtain rfl := Option.some.inj hfields
      rfl
    | cons f fields ihs =>
      obtain ⟨u, hu, h⟩ := Option.bind_eq_some_iff.mp hfields
      obtain ⟨rest, hrest, hret⟩ := Option.bind_eq_some_iff.mp h
      obtain rfl := Option.some.inj hret
      rw [substFields, expandFields, ih f List.mem_cons_self hu,
        ihs (fun g hg => ih g (List.mem_cons_of_mem f hg)) rest hrest]
      rfl

end Substitution

end Nameless

namespace Ty

theorem below_nameless (t : Ty) (xs : List String) : (t.nameless xs).Below xs.length := by
  induction t using Ty.induction generalizing xs with
  | name line x =>
    rw [nameless]
    split_ifs with hx
    · exact List.idxOf_lt_length_of_mem hx
    · trivial
  | all line x bounds body ih => exact ih (x :: xs)
  | arrow line dom cod ihd ihc | app line fn arg ihd ihc => exact ⟨ihd xs, ihc xs⟩
  | list line elem ih => exact ih xs
  | emptyList => trivial
  | record line fields ih =>
    rw [nameless, namelessFields_eq]
    apply Nameless.belowFields_iff.mpr
    intro g hg
    obtain ⟨f, hf, rfl⟩ := List.mem_map.mp hg
    exact ih f hf xs

theorem close_nameless_nil (t : Ty) (xs : List String) :
    (t.nameless []).close xs 0 = t.nameless xs :=
  (nameless_close t [] xs).symm

/-- A quantified type at an argument, under quantifiers over `xs`. -/
theorem apply_nameless (body arg : Ty) (x : String) (xs : List String) :
    (body.nameless (x :: xs)).apply (arg.nameless xs) 0 =
      ((body.nameless []).subst x (arg.nameless [])).close xs 0 := by
  have hclose : ((body.nameless []).close (x :: xs) 0).apply ((arg.nameless []).close xs 0) 0 =
      ((body.nameless []).subst x (arg.nameless [])).close xs 0 :=
    (below_nameless body []).apply_close (below_nameless arg []) x xs
  rwa [close_nameless_nil, close_nameless_nil] at hclose

/-- The substitution that draws names instantiates a quantified type, as long as all names are
old. -/
theorem nameless_instance (body arg : Ty) (x : String) (xs : List String) {k : Nat}
    (hx : OldName k x) (harg : ∀ w ∈ arg.free, OldName k w)
    (hbody : ∀ w ∈ body.names, OldName k w) :
    ((body.subst x arg).run k).1.nameless xs =
      (body.nameless (x :: xs)).apply (arg.nameless xs) 0 := by
  calc
    ((body.subst x arg).run k).1.nameless xs
      = (((body.subst x arg).run k).1.nameless []).close xs 0 :=
      (close_nameless_nil _ xs).symm
    _ = ((body.nameless []).subst x (arg.nameless [])).close xs 0 := by
      rw [nameless_subst body x arg k hx harg hbody]
    _ = (body.nameless (x :: xs)).apply (arg.nameless xs) 0 := (apply_nameless body arg x xs).symm

end Ty

end TraitCalculus
