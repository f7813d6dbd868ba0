import Mathlib
import TraitCalculus.Proofs.DrawnNames

/-! Instances of quantified types that are alike. Two substitutions of one type, each with a
counter of its own, rename the same quantifiers: the results are alike again, whatever names the
two draw. -/
namespace TraitCalculus.Ty

/-- Whatever holds of the names of quantifiers of a type and of the new type, and of every name drawn
later, holds of those of the result. -/
theorem forall_binders_substIn (t : Ty) {P : String → Prop} {ρ : List (String × String)}
    {σ : Option (String × Ty)} {k : Nat} (ht : ∀ w ∈ t.binders, P w)
    (hσ : ∀ y new, σ = some (y, new) → ∀ w ∈ new.binders, P w)
    (hfresh : ∀ base j, k < j → P (freshName base j)) :
    ∀ w ∈ ((t.substIn ρ σ).run k).1.binders, P w := by
  induction t using Ty.induction generalizing ρ σ k with
  | name line x =>
    intro w hw
    by_cases hs : ∃ new, σ = some (renamed ρ x, new)
    · obtain ⟨new, rfl⟩ := hs
      apply hσ _ new rfl w
      rw [← substName_of_eq ρ line x new]
      exact hw
    · obtain ⟨line', hname⟩ := substName_of_ne ρ σ line x fun y new hy he => hs ⟨new, he ▸ hy⟩
      have hw' : w ∈ (name line' (renamed ρ x)).binders := hname ▸ hw
      cases hw'
  | all line x bounds body ih =>
    obtain ⟨hx, hbody⟩ := List.forall_mem_cons.mp ht
    obtain ⟨z, ρ', σ', k', hin, hrun⟩ := run_substIn_all ρ σ k line x bounds body
    rw [hrun]
    cases hin with
    | hidden _ => exact List.forall_mem_cons.mpr ⟨hx, ih hbody (by simp) hfresh⟩
    | kept y new _ _ _ => exact List.forall_mem_cons.mpr ⟨hx, ih hbody hσ hfresh⟩
    | renamed y new _ _ _ =>
      exact List.forall_mem_cons.mpr ⟨hfresh x (k + 1) (Nat.lt_succ_self k),
        ih hbody hσ fun base j hj => hfresh base j (by omega)⟩
  | arrow line dom cod ihd ihc | app line dom arg ihd ihc =>
    obtain ⟨hd, hc⟩ := List.forall_mem_append.mp ht
    have hk := substIn_drawn_le dom ρ σ k
    exact List.forall_mem_append.mpr ⟨ihd hd hσ hfresh,
      ihc hc hσ fun base j hj => hfresh base j (hk.trans_lt hj)⟩
  | list line elem ih => exact ih ht hσ hfresh
  | emptyList =>
    intro w hw
    cases hw
  | record line fields ih =>
    intro w hw
    obtain ⟨g, hg, hwg⟩ := mem_bindersFields.mp hw
    obtain ⟨f, hf, j, hj, rfl, -⟩ :=
      (mem_substFields ρ σ k fields fun f _ j => substIn_drawn_le f.2 ρ σ j).2 g hg
    have htf : ∀ w ∈ f.2.binders, P w := fun v hv => ht v (mem_bindersFields.mpr ⟨f, hf, hv⟩)
    exact ih f hf htf hσ (fun base i hi => hfresh base i (by omega)) w hwg

/-- Every draw gives another name, so no two quantifiers over one come to stand inside each
other. -/
theorem unnested_substIn (t : Ty) {k₀ k : Nat} {ρ : List (String × String)}
    {σ : Option (String × Ty)} (ht : t.Unnested k₀) (hold : t.Settled k)
    (hσ : ∀ y new, σ = some (y, new) → new.Settled k₀) (hk : k₀ ≤ k) :
    ((t.substIn ρ σ).run k).1.Unnested k₀ := by
  induction t using Ty.induction generalizing ρ σ k with
  | name line x =>
    by_cases hs : ∃ new, σ = some (renamed ρ x, new)
    · obtain ⟨new, rfl⟩ := hs
      have hnew := (hσ _ new rfl).unnested
      rw [← substName_of_eq ρ line x new] at hnew
      exact hnew
    · obtain ⟨line', hname⟩ := substName_of_ne ρ σ line x fun y new hy he => hs ⟨new, he ▸ hy⟩
      have hrun : ((name line x).substIn ρ σ).run k = (name line' (renamed ρ x), k) :=
        congrArg (·, k) hname
      rw [hrun]
      trivial
  | all line x bounds body ih =>
    obtain ⟨hx, hbody⟩ := Settled.all_iff.mp hold
    obtain ⟨z, ρ', σ', k', hin, hrun⟩ := run_substIn_all ρ σ k line x bounds body
    have hσ' : ∀ y new, σ' = some (y, new) → new.Settled k₀ := by
      cases hin with
      | hidden _ => simp
      | kept | renamed => exact hσ
    have hk' : k ≤ k' := by cases hin <;> omega
    rw [hrun]
    refine ⟨?_, ih ht.2 (hbody.mono hk') hσ' (hk.trans hk')⟩
    by_cases hz : OldName k₀ z
    · exact Or.inl hz
    -- the name is not that of a quantifier inside, not one of the new type, and not drawn again
    · refine Or.inr fun hmem => ?_
      have hnew : ∀ y new, σ' = some (y, new) → ∀ w ∈ new.binders, w ≠ z :=
        fun y new hy w hw he => hz (he ▸ hσ' y new hy w (binders_subset_names new w hw))
      suffices hne : ∀ w ∈ ((body.substIn ρ' σ').run k').1.binders, w ≠ z from hne z hmem rfl
      have hzold : OldName k' z := by
        cases hin with
        | hidden _ | kept => exact hx
        | renamed => exact oldName_freshName x (k + 1)
      apply forall_binders_substIn body _ hnew
      · intro base j hj he
        exact not_oldName_freshName base hj (he ▸ hzold)
      · intro w hw he
        have hwold : OldName k w := hbody w (binders_subset_names body w hw)
        cases hin with
        | hidden _ | kept => exact (ht.1.resolve_left hz) (he ▸ hw)
        | renamed => exact hwold.ne_freshName x he
  | arrow line dom cod ihd ihc =>
    obtain ⟨hd, hc⟩ := Settled.arrow_iff.mp hold
    have hk' := substIn_drawn_le dom ρ σ k
    exact ⟨ihd ht.1 hd hσ hk, ihc ht.2 (hc.mono hk') hσ (hk.trans hk')⟩
  | app line fn arg ihf iha =>
    obtain ⟨hf, ha⟩ := Settled.app_iff.mp hold
    have hk' := substIn_drawn_le fn ρ σ k
    exact ⟨ihf ht.1 hf hσ hk, iha ht.2 (ha.mono hk') hσ (hk.trans hk')⟩
  | list line elem ih => exact ih ht hold hσ hk
  | emptyList => trivial
  | record line fields ih =>
    apply unnestedFields_iff.mpr
    intro g hg
    obtain ⟨f, hf, j, hj, rfl, -⟩ :=
      (mem_substFields ρ σ k fields fun f _ j => substIn_drawn_le f.2 ρ σ j).2 g hg
    exact ih f hf (unnestedFields_iff.mp ht f hf) ((Settled.record_iff.mp hold f hf).mono hj) hσ
      (hk.trans hj)

/-- Two substitutions on their way, for `x` in one type and for `x'` in another that is like it.
They started at `j` and `j'` and have renamed the same quantifiers, all of them over names old
at `k`, to names drawn since. -/
structure InStep (k j j' : Nat) (x x' : String) (new : Ty) (ρ ρ' : List (String × String))
    (σ σ' : Option (String × Ty)) (i i' : Nat) : Prop where
  domain : ∀ w, ρ.lookup w = none ↔ ρ'.lookup w = none
  old : ∀ w, ¬OldName k w → ρ.lookup w = none
  drawn : ∀ w z, ρ.lookup w = some z → ¬OldName j z
  drawn' : ∀ w z, ρ'.lookup w = some z → ¬OldName j' z
  target : (σ = some (x, new) ∧ σ' = some (x', new)) ∨ (σ = none ∧ σ' = none)
  le : j ≤ i
  le' : j' ≤ i'

/-- What the two names that are replaced, and the new type, have to do with each other. -/
structure Matched (k j j' : Nat) (x x' : String) (new : Ty) : Prop where
  le : k ≤ j
  le' : k ≤ j'
  mask : maskName k x = maskName k x'
  old : OldName j x
  old' : OldName j' x'
  new : new.Settled k

section InStep

variable {k j j' i i' : Nat} {x x' : String} {new : Ty} {ρ ρ' : List (String × String)}
  {σ σ' : Option (String × Ty)}

theorem lookup_filter (ρ : List (String × String)) (y w : String) :
    (ρ.filter (·.1 ≠ y)).lookup w = if w = y then none else ρ.lookup w := by
  split_ifs with h
  · rw [h]
    exact Assoc.lookup_erase_self y ρ
  · exact Assoc.lookup_erase_of_ne ρ h

namespace InStep

theorem start (k j j' : Nat) (x x' : String) (new : Ty) :
    InStep k j j' x x' new [] [] (some (x, new)) (some (x', new)) j j' where
  domain := by simp
  old := by simp
  drawn := by simp
  drawn' := by simp
  target := Or.inl ⟨rfl, rfl⟩
  le := le_rfl
  le' := le_rfl

theorem later (h : InStep k j j' x x' new ρ ρ' σ σ' i i') {i₁ i₁' : Nat} (hi : i ≤ i₁)
    (hi' : i' ≤ i₁') : InStep k j j' x x' new ρ ρ' σ σ' i₁ i₁' :=
  { h with le := h.le.trans hi, le' := h.le'.trans hi' }

/-- Under quantifiers that keep their names. -/
theorem keep (h : InStep k j j' x x' new ρ ρ' σ σ' i i') {y y' : String}
    (hy : maskName k y = maskName k y') {σ₁ σ₁' : Option (String × Ty)}
    (ht : (σ₁ = some (x, new) ∧ σ₁' = some (x', new)) ∨ (σ₁ = none ∧ σ₁' = none)) :
    InStep k j j' x x' new (ρ.filter (·.1 ≠ y)) (ρ'.filter (·.1 ≠ y')) σ₁ σ₁' i i' where
  domain := by
    intro w
    rw [lookup_filter, lookup_filter]
    by_cases hw : OldName k w
    · -- an old name is that of both quantifiers or of none
      have hiff : w = y ↔ w = y' := by
        constructor
        · intro he
          exact (eq_of_maskName_eq (he ▸ hy) hw).symm
        · intro he
          exact (eq_of_maskName_eq (he ▸ hy.symm) hw).symm
      simp only [hiff]
      split_ifs
      · exact Iff.rfl
      · exact h.domain w
    · have hnone := h.old w hw
      rw [hnone, (h.domain w).mp hnone, ite_self, ite_self]
  old := by
    intro w hw
    rw [lookup_filter, h.old w hw, ite_self]
  drawn := by
    intro w z hz
    rw [lookup_filter] at hz
    split_ifs at hz
    exact h.drawn w z hz
  drawn' := by
    intro w z hz
    rw [lookup_filter] at hz
    split_ifs at hz
    exact h.drawn' w z hz
  target := ht
  le := h.le
  le' := h.le'

/-- Under quantifiers over one old name that get fresh names. -/
theorem rename (h : InStep k j j' x x' new ρ ρ' σ σ' i i') {y : String} (hy : OldName k y) :
    InStep k j j' x x' new ((y, freshName y (i + 1)) :: ρ.filter (·.1 ≠ y))
      ((y, freshName y (i' + 1)) :: ρ'.filter (·.1 ≠ y)) σ σ' (i + 1) (i' + 1) := by
  have hk := h.keep (y := y) rfl h.target
  constructor
  · intro w
    rw [Assoc.lookup_cons_if, Assoc.lookup_cons_if]
    split_ifs
    · exact Iff.rfl
    · exact hk.domain w
  · intro w hw
    have hne : w ≠ y := fun he => hw (he ▸ hy)
    rw [Assoc.lookup_cons_if, if_neg hne]
    exact hk.old w hw
  · intro w z hz
    rw [Assoc.lookup_cons_if] at hz
    split_ifs at hz with he
    · exact Option.some.inj hz ▸ not_oldName_freshName y (Nat.lt_succ_of_le h.le)
    · exact hk.drawn w z hz
  · intro w z hz
    rw [Assoc.lookup_cons_if] at hz
    split_ifs at hz with he
    · exact Option.some.inj hz ▸ not_oldName_freshName y (Nat.lt_succ_of_le h.le')
    · exact hk.drawn' w z hz
  · exact h.target
  · exact h.le.trans (Nat.le_succ i)
  · exact h.le'.trans (Nat.le_succ i')

end InStep

/-- The names are replaced at the same places: where names are old, they are the same, and a
name that was drawn is found by its quantifier. -/
theorem mask_substName (hm : Matched k j j' x x' new)
    (h : InStep k j j' x x' new ρ ρ' σ σ' i i') {w w' : String} (hw : maskName k w = maskName k w')
    (hx : ¬OldName k x → (w = x ↔ w' = x')) (line : Option Nat) :
    (substName ρ σ line w).mask k = (substName ρ' σ' line w').mask k := by
  cases hl : ρ.lookup w with
  | some z =>
    -- the quantifier of `w` was renamed in both, so `w` is old
    have hold : OldName k w := by
      by_contra hn
      rw [h.old w hn] at hl
      cases hl
    obtain rfl : w' = w := eq_of_maskName_eq hw hold
    obtain ⟨z', hl'⟩ : ∃ z', ρ'.lookup w' = some z' := by
      cases hl' : ρ'.lookup w' with
      | none => rw [(h.domain w').mpr hl'] at hl; cases hl
      | some z' => exact ⟨z', rfl⟩
    have hz : ¬OldName j z := h.drawn w' z hl
    have hz' : ¬OldName j' z' := h.drawn' w' z' hl'
    have hzx : z ≠ x := fun he => hz (he ▸ hm.old)
    have hzx' : z' ≠ x' := fun he => hz' (he ▸ hm.old')
    have hs : substName ρ σ line w' = name none z := by
      rcases h.target with ht | ht <;> simp [substName, hl, ht.1, hzx]
    have hs' : substName ρ' σ' line w' = name none z' := by
      rcases h.target with ht | ht <;> simp [substName, hl', ht.2, hzx']
    rw [hs, hs', mask, mask, maskName_of_drawn fun ho => hz (ho.mono hm.le),
      maskName_of_drawn fun ho => hz' (ho.mono hm.le')]
  | none =>
    have hl' : ρ'.lookup w' = none := by
      by_cases hold : OldName k w
      · obtain rfl : w' = w := eq_of_maskName_eq hw hold
        exact (h.domain w').mp hl
      · have hold' : ¬OldName k w' := fun ho => hold ((old_iff_of_maskName_eq hw).mpr ho)
        exact (h.domain w').mp (h.old w' hold')
    have hiff : w = x ↔ w' = x' := by
      by_cases hxold : OldName k x
      · obtain rfl : x' = x := eq_of_maskName_eq hm.mask hxold
        constructor
        · intro he
          exact eq_of_maskName_eq (he ▸ hw) hxold
        · intro he
          exact eq_of_maskName_eq (he ▸ hw.symm) hxold
      · exact hx hxold
    rcases h.target with ⟨rfl, rfl⟩ | ⟨rfl, rfl⟩
    · have hs : substName ρ (some (x, new)) line w = if w = x then new else name line w := by
        simp [substName, hl]
      have hs' : substName ρ' (some (x', new)) line w' =
          if w' = x' then new else name line w' := by
        simp [substName, hl']
      rw [hs, hs']
      simp only [hiff]
      split_ifs
      · rfl
      · rw [mask, mask, hw]
    · simp [substName, hl, hl', hw]

/-- Two types under quantifiers over `xs` and over `xs'`, the innermost first, of which the first
stands in a type over `x` and the second in one over `x'` that is like it. If `x` was drawn, no
quantifier inside hides it. -/
structure Facing (k : Nat) (x x' : String) (xs xs' : List String) (t t' : Ty) : Prop where
  mask : t.mask k = t'.mask k
  place : t.nameless (xs ++ [x]) = t'.nameless (xs' ++ [x'])
  depth : xs.length = xs'.length
  bound : ¬OldName k x → x ∉ xs ∧ x ∉ t.binders
  bound' : ¬OldName k x → x' ∉ xs' ∧ x' ∉ t'.binders

section Decisions

variable {y z : String} {ρ₁ : List (String × String)} {σ₁ : Option (String × Ty)} {i₁ : Nat}

theorem Entered.of_none (h : Entered y ρ none i z ρ₁ σ₁ i₁) :
    z = y ∧ ρ₁ = ρ.filter (·.1 ≠ y) ∧ σ₁ = none ∧ i₁ = i := by
  cases h with
  | hidden _ => exact ⟨rfl, rfl, rfl, rfl⟩
  | kept _ _ hσ => cases hσ
  | renamed _ _ hσ => cases hσ

theorem Entered.of_hidden (h : Entered x ρ (some (x, new)) i z ρ₁ σ₁ i₁) :
    z = x ∧ ρ₁ = ρ.filter (·.1 ≠ x) ∧ σ₁ = none ∧ i₁ = i := by
  cases h with
  | hidden _ => exact ⟨rfl, rfl, rfl, rfl⟩
  | kept _ _ hσ hne | renamed _ _ hσ hne => exact absurd (Prod.mk.inj (Option.some.inj hσ)).1 hne

theorem Entered.of_ne (h : Entered y ρ (some (x, new)) i z ρ₁ σ₁ i₁) (hne : y ≠ x) :
    (y ∉ new.free ∧ z = y ∧ ρ₁ = ρ.filter (·.1 ≠ y) ∧ σ₁ = some (x, new) ∧ i₁ = i) ∨
    (y ∈ new.free ∧ z = freshName y (i + 1) ∧
      ρ₁ = (y, freshName y (i + 1)) :: ρ.filter (·.1 ≠ y) ∧ σ₁ = some (x, new) ∧ i₁ = i + 1) := by
  cases h with
  | hidden h =>
    rcases h with h | ⟨new', h⟩
    · cases h
    · exact absurd (Prod.mk.inj (Option.some.inj h)).1.symm hne
  | kept _ _ hσ _ hfree =>
    obtain ⟨-, rfl⟩ := Prod.mk.inj (Option.some.inj hσ)
    exact Or.inl ⟨hfree, rfl, rfl, rfl, rfl⟩
  | renamed _ _ hσ _ hfree =>
    obtain ⟨-, rfl⟩ := Prod.mk.inj (Option.some.inj hσ)
    exact Or.inr ⟨hfree, rfl, rfl, rfl, rfl⟩

end Decisions

namespace Facing

variable {xs xs' : List String} {t' : Ty}

theorem idxOf_append_singleton {w : String} (hx : x ∉ xs) :
    w ∈ xs ++ [x] ∧ (xs ++ [x]).idxOf w = xs.length ↔ w = x := by
  constructor
  · rintro ⟨hmem, hidx⟩
    by_cases hw : w ∈ xs
    · rw [List.idxOf_append, if_pos hw] at hidx
      exact absurd hidx (List.idxOf_lt_length_of_mem hw).ne
    · simpa [hw] using hmem
  · rintro rfl
    simp [List.idxOf_append, hx]

/-- A name that was drawn stands for the quantified name in both types or in none. -/
theorem name_iff {line line' : Option Nat} {w w' : String}
    (h : Facing k x x' xs xs' (name line w) (name line' w')) (hx : ¬OldName k x) :
    w = x ↔ w' = x' := by
  have hp := h.place
  rw [nameless, nameless] at hp
  rw [← idxOf_append_singleton (h.bound hx).1, ← idxOf_append_singleton (h.bound' hx).1, ← h.depth]
  split_ifs at hp with hw hw' hw'
  · rw [Nameless.bound.injEq] at hp
    simp only [hw, hw', hp]
  · simp [hw, hw']

theorem of_arrow {line : Option Nat} {dom cod : Ty}
    (h : Facing k x x' xs xs' (arrow line dom cod) t') :
    ∃ dom' cod', t' = arrow line dom' cod' ∧ Facing k x x' xs xs' dom dom' ∧
      Facing k x x' xs xs' cod cod' := by
  obtain ⟨hm, hp, hd, hx, hx'⟩ := h
  cases t' with
  | arrow line' dom' cod' =>
    simp only [Ty.mask, Ty.arrow.injEq] at hm
    simp only [nameless, Nameless.arrow.injEq] at hp
    simp only [binders, List.mem_append, not_or] at hx hx'
    refine ⟨dom', cod', by rw [hm.1], ⟨hm.2.1, hp.1, hd, ?_, ?_⟩, ⟨hm.2.2, hp.2, hd, ?_, ?_⟩⟩
    · exact fun ho => ⟨(hx ho).1, (hx ho).2.1⟩
    · exact fun ho => ⟨(hx' ho).1, (hx' ho).2.1⟩
    · exact fun ho => ⟨(hx ho).1, (hx ho).2.2⟩
    · exact fun ho => ⟨(hx' ho).1, (hx' ho).2.2⟩
  | _ => simp at hm

theorem of_app {line : Option Nat} {fn arg : Ty}
    (h : Facing k x x' xs xs' (app line fn arg) t') :
    ∃ fn' arg', t' = app line fn' arg' ∧ Facing k x x' xs xs' fn fn' ∧
      Facing k x x' xs xs' arg arg' := by
  obtain ⟨hm, hp, hd, hx, hx'⟩ := h
  cases t' with
  | app line' fn' arg' =>
    simp only [Ty.mask, Ty.app.injEq] at hm
    simp only [nameless, Nameless.app.injEq] at hp
    simp only [binders, List.mem_append, not_or] at hx hx'
    refine ⟨fn', arg', by rw [hm.1], ⟨hm.2.1, hp.1, hd, ?_, ?_⟩, ⟨hm.2.2, hp.2, hd, ?_, ?_⟩⟩
    · exact fun ho => ⟨(hx ho).1, (hx ho).2.1⟩
    · exact fun ho => ⟨(hx' ho).1, (hx' ho).2.1⟩
    · exact fun ho => ⟨(hx ho).1, (hx ho).2.2⟩
    · exact fun ho => ⟨(hx' ho).1, (hx' ho).2.2⟩
  | _ => simp at hm

theorem of_all {line : Option Nat} {y : String} {bounds : List String} {body : Ty}
    (h : Facing k x x' xs xs' (all line y bounds body) t') :
    ∃ y' body', t' = all line y' bounds body' ∧ maskName k y = maskName k y' ∧
      (¬OldName k x → y ≠ x ∧ y' ≠ x') ∧
      Facing k x x' (y :: xs) (y' :: xs') body body' := by
  obtain ⟨hm, hp, hd, hx, hx'⟩ := h
  cases t' with
  | all line' y' bounds' body' =>
    simp only [Ty.mask, Ty.all.injEq] at hm
    simp only [nameless, Nameless.all.injEq] at hp
    simp only [binders, List.mem_cons, not_or] at hx hx'
    refine ⟨y', body', by rw [hm.1, hm.2.2.1], hm.2.1, ?_, hm.2.2.2, hp.2, by simp [hd], ?_, ?_⟩
    · exact fun ho => ⟨Ne.symm (hx ho).2.1, Ne.symm (hx' ho).2.1⟩
    · exact fun ho => ⟨by simp [hx ho], (hx ho).2.2⟩
    · exact fun ho => ⟨by simp [hx' ho], (hx' ho).2.2⟩
  | _ => simp at hm

theorem of_list {line : Option Nat} {elem : Ty} (h : Facing k x x' xs xs' (list line elem) t') :
    ∃ elem', t' = list line elem' ∧ Facing k x x' xs xs' elem elem' := by
  obtain ⟨hm, hp, hd, hx, hx'⟩ := h
  cases t' with
  | list line' elem' =>
    simp only [Ty.mask, Ty.list.injEq] at hm
    simp only [nameless, Nameless.list.injEq] at hp
    exact ⟨elem', by rw [hm.1], hm.2, hp, hd, hx, hx'⟩
  | _ => simp at hm

theorem of_record {line : Option Nat} {fs : List (String × Ty)}
    (h : Facing k x x' xs xs' (record line fs) t') :
    ∃ gs, t' = record line gs ∧
      List.Forall₂ (fun f g => f.1 = g.1 ∧ Facing k x x' xs xs' f.2 g.2) fs gs := by
  obtain ⟨hm, hp, hd, hx, hx'⟩ := h
  cases t' with
  | record line' gs =>
    simp only [Ty.mask, Ty.record.injEq] at hm
    simp only [nameless, Nameless.record.injEq] at hp
    refine ⟨gs, by rw [hm.1], ?_⟩
    replace hm := hm.2
    induction fs generalizing gs with
    | nil =>
      cases gs with
      | nil => exact .nil
      | cons g gs => simp at hm
    | cons f fs ih =>
      cases gs with
      | nil => simp at hm
      | cons g gs =>
        simp only [maskFields, namelessFields, List.cons.injEq, Prod.mk.injEq, binders,
          bindersFields, List.mem_append, not_or] at hm hp hx hx'
        refine .cons ⟨hp.1.1, hm.1.2, hp.1.2, hd, ?_, ?_⟩ (ih ?_ gs ?_ hp.2 hm.2)
        · exact fun ho => ⟨(hx ho).1, (hx ho).2.1⟩
        · exact fun ho => ⟨(hx' ho).1, (hx' ho).2.1⟩
        · exact fun ho => ⟨(hx ho).1, (hx ho).2.2⟩
        · exact fun ho => ⟨(hx' ho).1, (hx' ho).2.2⟩
  | _ => simp at hm

/-- Two substitutions in step leave types that differ in drawn names only. -/
theorem mask_substIn (hm : Matched k j j' x x' new) (t : Ty)
    (h : InStep k j j' x x' new ρ ρ' σ σ' i i') (hf : Facing k x x' xs xs' t t') :
    ((t.substIn ρ σ).run i).1.mask k = ((t'.substIn ρ' σ').run i').1.mask k := by
  induction t using Ty.induction generalizing t' ρ ρ' σ σ' i i' xs xs' with
  | name line w =>
    cases t' with
    | name line' w' =>
      have hw := hf.mask
      rw [Ty.mask, Ty.mask, Ty.name.injEq] at hw
      obtain ⟨rfl, hw⟩ := hw
      exact mask_substName hm h hw hf.name_iff line
    | _ => simpa using hf.mask
  | all line y bounds body ih =>
    obtain ⟨y', body', rfl, hy, hyx, hbody⟩ := hf.of_all
    obtain ⟨z, ρ₁, σ₁, i₁, hin, hrun⟩ := run_substIn_all ρ σ i line y bounds body
    obtain ⟨z', ρ₁', σ₁', i₁', hin', hrun'⟩ := run_substIn_all ρ' σ' i' line y' bounds body'
    -- both quantifiers hide the name or neither does, and both capture or neither does
    have hhide : y = x ↔ y' = x' := by
      by_cases hx : OldName k x
      · obtain rfl : x' = x := eq_of_maskName_eq hm.mask hx
        constructor
        · intro he
          exact eq_of_maskName_eq (he ▸ hy) hx
        · intro he
          exact eq_of_maskName_eq (he ▸ hy.symm) hx
      · exact iff_of_false (hyx hx).1 (hyx hx).2
    have hnew {w : String} (hw : w ∈ new.free) : OldName k w :=
      hm.new w (free_subset_names new w hw)
    have hcapture : y ∈ new.free ↔ y' ∈ new.free := by
      constructor
      · intro hmem
        exact eq_of_maskName_eq hy (hnew hmem) ▸ hmem
      · intro hmem
        exact eq_of_maskName_eq hy.symm (hnew hmem) ▸ hmem
    have hstep : maskName k z = maskName k z' ∧ InStep k j j' x x' new ρ₁ ρ₁' σ₁ σ₁' i₁ i₁' := by
      rcases h.target with ⟨rfl, rfl⟩ | ⟨rfl, rfl⟩
      · by_cases hx : y = x
        · obtain rfl := hx
          obtain rfl := hhide.mp rfl
          obtain ⟨rfl, rfl, rfl, rfl⟩ := hin.of_hidden
          obtain ⟨rfl, rfl, rfl, rfl⟩ := hin'.of_hidden
          exact ⟨hy, h.keep hy (Or.inr ⟨rfl, rfl⟩)⟩
        · have hx' : y' ≠ x' := fun he => hx (hhide.mpr he)
          rcases hin.of_ne hx with ⟨hc, rfl, rfl, rfl, rfl⟩ | ⟨hc, rfl, rfl, rfl, rfl⟩
          · rcases hin'.of_ne hx' with ⟨-, rfl, rfl, rfl, rfl⟩ | ⟨hc', -⟩
            · exact ⟨hy, h.keep hy (Or.inl ⟨rfl, rfl⟩)⟩
            · exact absurd (hcapture.mpr hc') hc
          · rcases hin'.of_ne hx' with ⟨hc', -⟩ | ⟨-, rfl, rfl, rfl, rfl⟩
            · exact absurd (hcapture.mp hc) hc'
            · obtain rfl : y' = y := eq_of_maskName_eq hy (hnew hc)
              have hle : k < i + 1 := Nat.lt_succ_of_le (hm.le.trans h.le)
              have hle' : k < i' + 1 := Nat.lt_succ_of_le (hm.le'.trans h.le')
              refine ⟨?_, h.rename (hnew hc)⟩
              rw [maskName_of_drawn (not_oldName_freshName y' hle),
                maskName_of_drawn (not_oldName_freshName y' hle')]
      · obtain ⟨rfl, rfl, rfl, rfl⟩ := hin.of_none
        obtain ⟨rfl, rfl, rfl, rfl⟩ := hin'.of_none
        exact ⟨hy, h.keep hy (Or.inr ⟨rfl, rfl⟩)⟩
    rw [hrun, hrun', Ty.mask, Ty.mask, hstep.1, ih hstep.2 hbody]
  | arrow line dom cod ihd ihc =>
    obtain ⟨dom', cod', rfl, hd, hc⟩ := hf.of_arrow
    have hnext := h.later (substIn_drawn_le dom ρ σ i) (substIn_drawn_le dom' ρ' σ' i')
    rw [run_substIn_arrow, run_substIn_arrow, Ty.mask, Ty.mask, ihd h hd, ihc hnext hc]
  | app line fn arg ihf iha =>
    obtain ⟨fn', arg', rfl, hfn, ha⟩ := hf.of_app
    have hnext := h.later (substIn_drawn_le fn ρ σ i) (substIn_drawn_le fn' ρ' σ' i')
    rw [run_substIn_app, run_substIn_app, Ty.mask, Ty.mask, ihf h hfn, iha hnext ha]
  | list line elem ih =>
    obtain ⟨elem', rfl, he⟩ := hf.of_list
    exact congrArg (Ty.list line) (ih h he)
  | emptyList =>
    cases t' with
    | emptyList => rfl
    | _ => simpa using hf.mask
  | record line fs ih =>
    obtain ⟨gs, rfl, hfs⟩ := hf.of_record
    have hfields : maskFields k ((substFields ρ σ fs).run i).1 =
        maskFields k ((substFields ρ' σ' gs).run i').1 := by
      clear hf
      induction hfs generalizing i i' with
      | nil => rfl
      | @cons f g fs gs hfg hfs ihs =>
        obtain ⟨hlabel, hfg⟩ := hfg
        obtain ⟨ihf, ihfs⟩ := List.forall_mem_cons.mp ih
        have hnext := h.later (substIn_drawn_le f.2 ρ σ i) (substIn_drawn_le g.2 ρ' σ' i')
        rw [run_substFields_cons, run_substFields_cons, maskFields, maskFields, hlabel, ihf h hfg,
          ihs ihfs hnext]
    exact congrArg (Ty.record line) hfields

/-- The nameless form of a name, inside the quantifiers and one more around them. -/
theorem nameless_name_append (xs : List String) (x : String) (line : Option Nat) (w : String) :
    (name line w).nameless (xs ++ [x]) =
      if w ∈ xs then .bound (xs.idxOf w) else if w = x then .bound xs.length else .free w := by
  rw [nameless]
  by_cases hw : w ∈ xs
  · simp [hw, List.idxOf_append]
  · by_cases hx : w = x
    · subst hx
      simp [hw, List.idxOf_append]
    · simp [hw, hx]

/-- Instances of the two types with one type have one nameless form. -/
theorem subst_nameless (t : Ty) (hf : Facing k x x' xs xs' t t') (new : Nameless) :
    (t.nameless xs).subst x new = (t'.nameless xs').subst x' new := by
  induction t using Ty.induction generalizing t' xs xs' with
  | name line w =>
    cases t' with
    | name line' w' =>
      have hp := hf.place
      rw [nameless_name_append, nameless_name_append, ← hf.depth] at hp
      have hlt : w ∈ xs → xs.idxOf w < xs.length := List.idxOf_lt_length_of_mem
      have hlt' : w' ∈ xs' → xs'.idxOf w' < xs.length :=
        fun h => hf.depth ▸ List.idxOf_lt_length_of_mem h
      rw [nameless, nameless]
      split_ifs at hp ⊢ <;> simp_all [Nameless.subst]
    | _ => simpa using hf.mask
  | all line y bounds body ih =>
    obtain ⟨y', body', rfl, -, -, hbody⟩ := hf.of_all
    rw [nameless, nameless, Nameless.subst, Nameless.subst, ih hbody]
  | arrow line dom cod ihd ihc =>
    obtain ⟨dom', cod', rfl, hd, hc⟩ := hf.of_arrow
    rw [nameless, nameless, Nameless.subst, Nameless.subst, ihd hd, ihc hc]
  | app line fn arg ihf iha =>
    obtain ⟨fn', arg', rfl, hfn, ha⟩ := hf.of_app
    rw [nameless, nameless, Nameless.subst, Nameless.subst, ihf hfn, iha ha]
  | list line elem ih =>
    obtain ⟨elem', rfl, he⟩ := hf.of_list
    rw [nameless, nameless, Nameless.subst, Nameless.subst, ih he]
  | emptyList =>
    cases t' with
    | emptyList => rfl
    | _ => simpa using hf.mask
  | record line fs ih =>
    obtain ⟨gs, rfl, hfs⟩ := hf.of_record
    rw [nameless, nameless, Nameless.subst, Nameless.subst, namelessFields_eq, namelessFields_eq,
      Nameless.substFields_eq, Nameless.substFields_eq, List.map_map, List.map_map]
    congr 1
    clear hf
    induction hfs with
    | nil => rfl
    | @cons f g fs gs hfg hfs ihs =>
      obtain ⟨ihf, ihfs⟩ := List.forall_mem_cons.mp ih
      rw [List.map_cons, List.map_cons, ihs ihfs]
      simp only [Function.comp_apply, hfg.1, ihf hfg.2]

end Facing

end InStep

/-- Instances of types that are alike, with one settled type, are alike: whatever names the two
substitutions draw, they rename the same quantifiers. -/
theorem alike_subst {k j j' : Nat} {line line' : Option Nat} {x x' : String}
    {bounds bounds' : List String} {body body' new : Ty}
    (h : (all line x bounds body).Alike k (all line' x' bounds' body')) (hj : k ≤ j)
    (hj' : k ≤ j') (hold : (all line x bounds body).Settled j)
    (hold' : (all line' x' bounds' body').Settled j') (hu : (all line x bounds body).Unnested k)
    (hu' : (all line' x' bounds' body').Unnested k) (hnew : new.Settled k) :
    ((body.subst x new).run j).1.Alike k ((body'.subst x' new).run j').1 := by
  obtain ⟨x₁, body₁, he, hx, hmask, hplace⟩ := h.of_all
  obtain ⟨-, rfl, -, rfl⟩ := Ty.all.inj he
  obtain ⟨hxold, hbody⟩ := Settled.all_iff.mp hold
  obtain ⟨hxold', hbody'⟩ := Settled.all_iff.mp hold'
  have hm : Matched k j j' x x' new := ⟨hj, hj', hx, hxold, hxold', hnew⟩
  have hf : Facing k x x' [] [] body body' := by
    refine ⟨hmask, hplace, rfl, fun ho => ⟨List.not_mem_nil, hu.1.resolve_left ho⟩, fun ho => ?_⟩
    have ho' : ¬OldName k x' := fun hc => ho ((old_iff_of_maskName_eq hx).mpr hc)
    exact ⟨List.not_mem_nil, hu'.1.resolve_left ho'⟩
  have hfree {i : Nat} (hi : k ≤ i) : ∀ w ∈ new.free, OldName i w :=
    fun w hw => (hnew w (free_subset_names new w hw)).mono hi
  constructor
  · exact hf.mask_substIn hm body (.start k j j' x x' new)
  · unfold AlphaEq
    rw [nameless_subst body x new j hxold (hfree hj) hbody,
      nameless_subst body' x' new j' hxold' (hfree hj') hbody']
    exact hf.subst_nameless body _

end TraitCalculus.Ty
