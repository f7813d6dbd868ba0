import Mathlib
import TraitCalculus.Proofs.ValueSubstitution

/-! Functions of several parameters that put their arguments into a record. Each argument goes
through the lambdas that are left and past the arguments before it. The lambdas may get other names
on the way and so may those inside of earlier arguments, but every argument arrives with its shape. -/
namespace TraitCalculus

namespace Expr

open Ty (renamed)

/-- Lambdas for some names, the outermost first, around a body. -/
inductive Under : List String → Expr → Expr → Prop
  | nil (e : Expr) : Under [] e e
  | cons {y : String} {ys : List String} {e c : Expr} (n : Note) (p : Param) (h : Under ys e c) :
      Under (y :: ys) e (lam n y p c)

section

variable {k₀ k k' : Nat} {x y z : String} {v w : Expr} {xs ys zs : List String}
  {ρ ρ' : List (String × String)} {σ : Option (String × Expr)}

/-- A substitution on its way enters one more lambda. -/
theorem underway_enter (hu : Ty.Underway k₀ x .emptyList xs zs ρ (some (x, .emptyList)) k)
    (hin : Entered y ρ (some (x, v)) k z ρ' σ k') (hyx : y ≠ x) (hx : OldName k₀ x)
    (hy : OldName k₀ y) :
    σ = some (x, v) ∧ renamed ρ' y = z ∧ (∀ w, w ≠ y → renamed ρ' w = renamed ρ w) ∧
      Ty.Underway k₀ x .emptyList (y :: xs) (z :: zs) ρ' (some (x, .emptyList)) k' := by
  cases hin with
  | hidden h => simp [Ne.symm hyx] at h
  | kept =>
    exact ⟨rfl, Ty.Underway.renamed_erase_self ρ y,
      fun w hw => Ty.Underway.renamed_erase_of_ne ρ hw, hu.keep hy hyx (by simp [Ty.free])⟩
  | renamed =>
    refine ⟨rfl, Ty.Underway.renamed_cons_self _ y _, fun w hw => ?_,
      hu.rename hy hx (by simp [Ty.free])⟩
    rw [Ty.Underway.renamed_cons_of_ne _ _ hw, Ty.Underway.renamed_erase_of_ne ρ hw]

/-- Substitution under lambdas: they get the names that the renaming at the body gives. -/
theorem Under.substIn {e c : Expr} (h : Under ys e c)
    (hu : Ty.Underway k₀ x .emptyList xs zs ρ (some (x, .emptyList)) k) (hx : OldName k₀ x)
    (hxys : x ∉ ys) (hys : ∀ y ∈ ys, OldName k₀ y) (hnodup : ys.Nodup) :
    ∃ xs' zs' ρ' k', Ty.Underway k₀ x .emptyList xs' zs' ρ' (some (x, .emptyList)) k' ∧
      (∀ w, w ∈ xs' ↔ w ∈ ys ∨ w ∈ xs) ∧ (∀ w, w ∉ ys → renamed ρ' w = renamed ρ w) ∧
      Under (ys.map (renamed ρ')) ((e.substIn ρ' (some (x, v))).run k').1
        ((c.substIn ρ (some (x, v))).run k).1 ∧
      ((c.substIn ρ (some (x, v))).run k).2 = ((e.substIn ρ' (some (x, v))).run k').2 := by
  induction h generalizing xs zs ρ k with
  | nil e => exact ⟨xs, zs, ρ, k, hu, by simp, by simp, .nil _, rfl⟩
  | @cons y ys e c n p h ih =>
    obtain ⟨hxy, hxys⟩ := List.forall_mem_cons.mp fun z hz => ne_of_mem_of_not_mem hz hxys
    obtain ⟨hy, hys⟩ := List.forall_mem_cons.mp hys
    obtain ⟨hnot, hnodup⟩ := List.nodup_cons.mp hnodup
    obtain ⟨z, ρ₁, σ₁, k₁, hin, hrun⟩ := run_substIn_lam ρ (some (x, v)) k n y p c
    obtain ⟨rfl, hz, hother, hu₁⟩ := underway_enter hu hin hxy hx hy
    obtain ⟨xs', zs', ρ', k', hu', hmem, hsame, hunder, hend⟩ := ih hu₁ (fun hm => hxys x hm rfl) hys hnodup
    refine ⟨xs', zs', ρ', k', hu', fun w => ?_, fun w hw => ?_, ?_, ?_⟩
    · rw [hmem, List.mem_cons, List.mem_cons]
      tauto
    · have hwys : w ∉ ys := fun hm => hw (List.mem_cons_of_mem y hm)
      rw [hsame w hwys, hother w fun he => hw (he ▸ List.mem_cons_self)]
    · rcases hrun with hrun | ⟨-, -, hnone, -⟩
      · rw [hrun, List.map_cons, hsame y hnot, hz]
        exact .cons _ _ hunder
      · cases hnone
    · rcases hrun with hrun | ⟨-, -, hnone, -⟩
      · rw [hrun]
        exact hend
      · cases hnone

end

/-- What stands in a field of the record: a value with the shape of an argument, or the parameter
for one that is still to come. -/
inductive Slot (k : Nat) : Expr ⊕ String → Expr → Prop
  | value {v w : Expr} (hshape : w.shape [] = v.shape []) (hw : w.Held k) : Slot k (.inl v) w
  | param (n : Note) (y : String) : Slot k (.inr y) (var n y)

/-- What the fields are for: first the arguments `vs`, then those for the parameters `ys`. -/
def targets (vs : List Expr) (ys : List String) : List (Expr ⊕ String) :=
  vs.map .inl ++ ys.map .inr

/-- The fields of the record when the arguments `vs` have been put in and `rest` are to come, for
which there are the parameters `ys`. -/
structure Filled (k : Nat) (vs rest : List Expr) (ys : List String) (parts : List Expr) : Prop where
  slots : List.Forall₂ (Slot k) (targets vs ys) parts
  length : ys.length = rest.length
  nodup : ys.Nodup
  old : ∀ y ∈ ys, OldName k y
  apart : ∀ y ∈ ys, ∀ v ∈ vs ++ rest, y ∉ v.freeVars

/-- What the slots are for when the argument `v` has come for the parameter `x`. -/
def putIn (ρ : List (String × String)) (x : String) (v : Expr) : Expr ⊕ String → Expr ⊕ String
  | .inl a => .inl a
  | .inr z => if z = x then .inl v else .inr (renamed ρ z)

/-- Two relations along lists, one after the other. -/
theorem forall₂_trans {α β γ : Type} {R : α → β → Prop} {S : β → γ → Prop} {T : α → γ → Prop}
    {as : List α} {bs : List β} {cs : List γ} (h : List.Forall₂ R as bs)
    (h' : List.Forall₂ S bs cs) (hT : ∀ a ∈ as, ∀ b c, R a b → S b c → T a c) :
    List.Forall₂ T as cs := by
  induction h generalizing cs with
  | nil =>
    cases h'
    exact .nil
  | cons hab _ ih =>
    obtain ⟨hfirst, hrest⟩ := List.forall_mem_cons.mp hT
    cases h' with
    | cons hbc h' => exact .cons (hfirst _ _ hab hbc) (ih h' hrest)

theorem targets_putIn (ρ : List (String × String)) {x : String} (v : Expr) (vs : List Expr)
    {ys : List String} (hx : x ∉ ys) : targets (vs ++ [v]) (ys.map (renamed ρ)) =
      (targets vs (x :: ys)).map (putIn ρ x v) := by
  have hys : ys.map (putIn ρ x v ∘ .inr) = (ys.map (renamed ρ)).map .inr := by
    rw [List.map_map]
    exact List.map_congr_left fun y hy => if_neg (ne_of_mem_of_not_mem hy hx)
  simp only [targets, List.map_append, List.map_cons, List.map_map, hys, List.append_assoc]
  simp [putIn, Function.comp_def]

section

variable {k₀ k k' : Nat} {x : String} {v : Expr} {vs rest : List Expr} {xs ys zs : List String}
  {parts : List Expr} {ρ : List (String × String)}

theorem Slot.substIn {target : Expr ⊕ String} {e : Expr} (h : Slot k₀ target e)
    (htarget : target ∈ targets vs (x :: ys)) (hv : v.Held k₀)
    (hfilled : Filled k₀ vs (v :: rest) (x :: ys) parts)
    (hu : Ty.Underway k₀ x .emptyList xs zs ρ (some (x, .emptyList)) k)
    (hxs : ∀ w, w ∈ xs ↔ w ∈ ys) (hk : ((e.substIn ρ (some (x, v))).run k).2 ≤ k') :
    Slot k' (putIn ρ x v target) ((e.substIn ρ (some (x, v))).run k).1 := by
  have hxys : x ∉ xs := fun hm => (List.nodup_cons.mp hfilled.nodup).1 ((hxs x).mp hm)
  have hmem : ∀ z ∈ xs, z ∈ x :: ys := fun z hz => List.mem_cons_of_mem x ((hxs z).mp hz)
  cases h with
  | @value a _ hshape hw =>
    have ha : a ∈ vs ++ v :: rest := by
      rcases List.mem_append.mp htarget with hm | hm
      · exact List.mem_append_left _ (List.mem_map_of_injective Sum.inl_injective |>.mp hm)
      · simp at hm
    have hfree : ∀ z ∈ x :: ys, z ∉ e.freeVars := by
      intro z hz hfree
      have hw' := (mem_freeNames_shape e [] z).mpr ⟨hfree, List.not_mem_nil⟩
      rw [hshape] at hw'
      exact hfilled.apart z hz a ha ((mem_freeNames_shape a [] z).mp hw').1
    obtain ⟨hshape', hheld⟩ := hw.substIn hv (hfilled.old x List.mem_cons_self) hu hxys
      (hfree x List.mem_cons_self) (fun z hz => hfree z (hmem z hz))
      (fun z hz => hfilled.apart z (hmem z hz) v (by simp))
    exact .value (hshape'.trans hshape) (hheld.mono hk)
  | param n y =>
    rw [run_substIn_var] at hk ⊢
    obtain ⟨n', hvar⟩ := substVar_some ρ x v n y
    rw [hvar, putIn]
    by_cases hyx : y = x
    · have hnone : renamed ρ y = y := by
        rw [renamed, hyx, hu.outside x hxys, Option.getD_none]
      rw [if_pos (hnone.trans hyx), if_pos hyx]
      exact .value rfl (hv.mono (hu.le.trans hk))
    · have hy : y ∈ xs := by
        rcases List.mem_append.mp htarget with hm | hm
        · simp at hm
        · simpa [hyx, hxs] using hm
      rw [if_neg (hu.kept y hy x .emptyList rfl), if_neg hyx]
      exact .param n' _

/-- One more argument. -/
theorem Filled.step {n : Note} {labels : List String} {c : Expr}
    (h : Filled k vs (v :: rest) (x :: ys) parts) (hargs : ∀ a ∈ vs ++ v :: rest, a.Held k)
    (hc : Under ys (record n (labels.zip parts)) c) (hlabels : labels.length = parts.length) :
    ∃ ys' parts', Under ys' (record n (labels.zip parts')) ((c.subst x v).run k).1 ∧
      labels.length = parts'.length ∧
      Filled ((c.subst x v).run k).2 (vs ++ [v]) rest ys' parts' := by
  have hv : v.Held k := hargs v (by simp)
  obtain ⟨hx, hys⟩ := List.forall_mem_cons.mp h.old
  obtain ⟨hxys, hnodup⟩ := List.nodup_cons.mp h.nodup
  obtain ⟨xs, zs, ρ, k₁, hu, hmem, -, hunder, hend⟩ :=
    hc.substIn (v := v) (.start k x .emptyList) hx hxys hys hnodup
  have hxs : ∀ w, w ∈ xs ↔ w ∈ ys := by simpa using hmem
  have hrecord : ((record n (labels.zip parts)).substIn ρ (some (x, v))).run k₁ =
      (record n (labels.zip ((substItems ρ (some (x, v)) parts).run k₁).1),
        ((substItems ρ (some (x, v)) parts).run k₁).2) := by
    have hrun : ((record n (labels.zip parts)).substIn ρ (some (x, v))).run k₁ =
        (record n ((substFields ρ (some (x, v)) (labels.zip parts)).run k₁).1,
          ((substFields ρ (some (x, v)) (labels.zip parts)).run k₁).2) := rfl
    rw [hrun, run_substFields, List.map_fst_zip hlabels.le, List.map_snd_zip hlabels.ge]
  rw [hrecord] at hunder hend
  have hle : k₁ ≤ ((c.subst x v).run k).2 := by
    rw [subst, hend]
    exact substItems_drawn_le ρ (some (x, v)) (fun e _ => e.substIn_drawn_le ρ (some (x, v))) k₁
  refine ⟨_, _, hunder, ?_, ?_⟩
  · rw [length_substItems, hlabels]
  -- the parameters keep their places: an old name is renamed to one of the same index
  have hinj : ∀ y ∈ ys, ∀ z ∈ ys, renamed ρ y = renamed ρ z → y = z := by
    intro y hy z hz heq
    have hidx := (hu.inside y ((hxs y).mpr hy)).2
    rw [heq, (hu.inside z ((hxs z).mpr hz)).2] at hidx
    exact ((List.idxOf_inj ((hxs z).mpr hz)).mp hidx).symm
  constructor
  · rw [targets_putIn ρ v vs hxys, List.forall₂_map_left_iff]
    refine forall₂_trans h.slots (forall₂_substItems ρ (some (x, v)) parts k₁) ?_
    rintro target ht e e' hslot ⟨j, hj, rfl, hle⟩
    exact hslot.substIn ht hv h (hu.mono hj) hxs (hle.trans hend.ge)
  · rw [List.length_map]
    exact Nat.succ.inj h.length
  · exact hnodup.map_on hinj
  · rw [List.forall_mem_map]
    intro y hy
    exact (old_renamed ((hys y hy).mono hu.le) fun p hp => (hu.drawn p hp).2).mono hle
  · rw [List.forall_mem_map, List.append_assoc]
    intro y hy a ha hfree
    rcases hu.renamed_cases y with heq | ⟨hnew, -⟩
    · rw [heq] at hfree
      exact h.apart y (List.mem_cons_of_mem x hy) a ha hfree
    · exact hnew ((hargs a ha).free_old _ hfree)

end

theorem evaluated_record {labels : List String} {parts : List Expr}
    (hlabels : labels.length = parts.length) (hparts : ∀ e ∈ parts, e.Evaluated) (n : Note) :
    (record n (labels.zip parts)).Evaluated := by
  constructor
  · rw [shape_record, List.map_snd_zip hlabels.ge]
    exact .record (List.forall_mem_map.mpr fun e he => (hparts e he).reduced)
  · rw [erased, erasedFields_iff, List.map_snd_zip hlabels.ge]
    exact fun e he => (hparts e he).erased

theorem mem_zip_of_forall₂ {α β γ : Type} {R : β → γ → Prop} {bs : List β} {cs : List γ}
    (h : List.Forall₂ R bs cs) {as : List α} {a : α} {b : β} (hmem : (a, b) ∈ as.zip bs) :
    ∃ c, (a, c) ∈ as.zip cs ∧ R b c := by
  induction h generalizing as with
  | nil => simp at hmem
  | cons hbc _ ih =>
    cases as with
    | nil => simp at hmem
    | cons a' as =>
      rcases List.mem_cons.mp hmem with heq | hmem
      · obtain ⟨rfl, rfl⟩ := Prod.mk.inj heq
        exact ⟨_, List.mem_cons_self, hbc⟩
      · obtain ⟨c, hc, hR⟩ := ih hmem
        exact ⟨c, List.mem_cons_of_mem _ hc, hR⟩

theorem Filled.evaluated {k : Nat} {vs parts : List Expr} (h : Filled k vs [] [] parts) :
    ∀ e ∈ parts, e.Evaluated := by
  refine forall_mem_of_forall₂ h.slots (P := fun target => ∃ v ∈ vs, Sum.inl v = target)
    (by simp [targets]) ?_
  rintro target e hslot ⟨v, -, rfl⟩
  cases hslot with
  | value _ hw => exact hw.evaluated

section

variable (line : Nat) {m : Machine} (hm : ∀ b : Builtin, m.globals.lookup b.name = none)
include hm

/-- A function loses the type of its parameter, and a record of all arguments is a value. -/
theorem Under.yields {vs rest parts : List Expr} {ys labels : List String} {n : Note} {c : Expr}
    (h : Under ys (record n (labels.zip parts)) c) (hlabels : labels.length = parts.length)
    (hfilled : Filled m.drawn vs rest ys parts) :
    ∃ c', Under ys (record n (labels.zip parts)) c' ∧ Yields line m c c' m.drawn := by
  cases h with
  | nil =>
    obtain rfl := List.length_eq_zero_iff.mp hfilled.length.symm
    exact ⟨_, .nil _, .self (evaluated_record hlabels hfilled.evaluated n) hm⟩
  | cons n' p h => exact ⟨_, .cons n' .erased h, .lam⟩

/-- All arguments, one after the other. -/
theorem Filled.yields (args : List (Note × Expr)) {k : Nat} {f c : Expr} {vs parts : List Expr}
    {ys labels : List String} {n : Note} (h : Filled k vs (args.map Prod.snd) ys parts)
    (hargs : ∀ a ∈ vs ++ args.map Prod.snd, a.Held m.drawn) (hk : m.drawn ≤ k)
    (hf : Yields line m f c k) (hc : Under ys (record n (labels.zip parts)) c)
    (hlabels : labels.length = parts.length) :
    ∃ ws k', Yields line m (args.foldl (fun f a => app a.1 f a.2) f) (record n (labels.zip ws)) k' ∧
      labels.length = ws.length ∧ Filled k' (vs ++ args.map Prod.snd) [] [] ws := by
  induction args generalizing k f c vs ys parts with
  | nil =>
    obtain rfl := List.length_eq_zero_iff.mp h.length
    cases hc with
    | nil => exact ⟨parts, k, hf, hlabels, by simpa using h⟩
  | cons a args ih =>
    cases hc with
    | nil => cases h.length
    | @cons y ys _ b n' p hb =>
      obtain ⟨ys', parts', hunder, hlabels', hfilled⟩ :=
        h.step (fun a ha => (hargs a ha).mono hk) hb hlabels
      have hle : k ≤ ((b.subst y a.2).run k).2 := b.substIn_drawn_le [] (some (y, a.2)) k
      obtain ⟨c', hc', hy⟩ := Under.yields line
        (m := { m with drawn := ((b.subst y a.2).run k).2 }) hm hunder hlabels' hfilled
      have ha : a.2.Evaluated := (hargs a.2 (by simp)).evaluated
      have happ : Yields line m (app a.1 f a.2) c' ((b.subst y a.2).run k).2 :=
        .call hf (.self (m := { m with drawn := k }) ha hm) hy
      have hall := ih hfilled (by simpa using hargs) (hk.trans hle) happ hc' hlabels'
      simpa using hall

theorem Yields.proj {e w : Expr} {n : Note} {fs : List (String × Expr)} {k : Nat} {label : String}
    (h : Yields line m e (record n fs) k) (hlookup : fs.lookup label = some w) (hw : w.Evaluated)
    (n' : Note) : Yields line m (proj n' e label) w k := by
  obtain ⟨d, he⟩ := h
  obtain ⟨d', hself⟩ : Yields line { m with drawn := k } w w k := .self hw hm
  refine ⟨max d d' + 1, fun fuel hfuel => ?_⟩
  obtain ⟨fuel, rfl⟩ := Nat.exists_eq_add_of_le' hfuel
  rw [← add_assoc, eval_proj, Eval.run_bind_of_ok (he _ (by omega))]
  simp only [hlookup]
  exact hself _ (by omega)

/-- Each field of the record gives back the argument for it. -/
theorem yields_field {f c : Expr} {args : List (Note × Expr)} {parts : List Expr}
    {ys labels : List String} {n : Note} (hf : Yields line m f c m.drawn)
    (hc : Under ys (record n (labels.zip parts)) c)
    (hfilled : Filled m.drawn [] (args.map Prod.snd) ys parts)
    (hargs : ∀ a ∈ args.map Prod.snd, a.Held m.drawn) (hlabels : labels.length = parts.length)
    (hnodup : labels.Nodup) {label : String} {v : Expr}
    (hv : (label, v) ∈ labels.zip (args.map Prod.snd)) (n' : Note) :
    ∃ u k, u.shape [] = v.shape [] ∧
      Yields line m (proj n' (args.foldl (fun f a => app a.1 f a.2) f) label) u k := by
  obtain ⟨ws, k, hrecord, hlen, hall⟩ := hfilled.yields line hm args hargs le_rfl hf hc hlabels
  have hslots : List.Forall₂ (fun v w => Slot k (.inl v) w) (args.map Prod.snd) ws :=
    List.forall₂_map_left_iff.mp (by simpa [targets] using hall.slots)
  obtain ⟨u, hu, hslot⟩ := mem_zip_of_forall₂ hslots hv
  cases hslot with
  | value hshape hheld =>
    have hlookup : (labels.zip ws).lookup label = some u :=
      Assoc.lookup_of_mem (by rwa [List.map_fst_zip hlen.le]) hu
    exact ⟨u, k, hshape, hrecord.proj line hm hlookup hheld.evaluated n'⟩

end

end Expr

end TraitCalculus
