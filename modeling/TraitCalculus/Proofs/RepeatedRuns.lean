import Mathlib
import TraitCalculus.Proofs.DrawnInstances
import TraitCalculus.Proofs.Elaboration

/-! Typing from a later state. A table of instances knows another if it has all of its entries;
typing only adds entries. `Reaches` says that typing succeeds from every state that has drawn
enough names and knows enough instances, and composes along the steps of a typing. -/
namespace TraitCalculus

/-- All entries of the second table are in the first. -/
def Knows (js is : List (String × List Ty)) : Prop :=
  ∀ trait ts, is.lookup trait = some ts → js.lookup trait = some ts

namespace Knows

variable {is js ks : List (String × List Ty)}

theorem refl (is : List (String × List Ty)) : Knows is is := fun _ _ h => h

theorem trans (h : Knows ks js) (h' : Knows js is) : Knows ks is :=
  fun trait ts ht => h trait ts (h' trait ts ht)

end Knows

namespace Typing

/-- Changes the entry of each of the traits, which is empty at first. -/
def update (g : List Ty → List Ty) (traits : List String) (is : List (String × List Ty)) :
    List (String × List Ty) :=
  traits.foldl (fun is trait => Assoc.insert trait (g ((is.lookup trait).getD [])) is) is

theorem run_assume (t : Ty) (traits : List String) (s : TypingState) :
    (assume t traits).run s =
      .ok ((), { s with instances := update (t :: ·) traits s.instances }) :=
  rfl

theorem run_release (traits : List String) (s : TypingState) :
    (release traits).run s =
      .ok ((), { s with instances := update List.tail traits s.instances }) :=
  rfl

theorem lookup_update (g : List Ty → List Ty) (traits : List String)
    (is : List (String × List Ty)) (trait : String) :
    (update g traits is).lookup trait =
      if trait ∈ traits then some (g^[traits.count trait] ((is.lookup trait).getD []))
      else is.lookup trait := by
  induction traits generalizing is with
  | nil => simp [update]
  | cons head traits ih =>
    have hstep : update g (head :: traits) is =
        update g traits (Assoc.insert head (g ((is.lookup head).getD [])) is) := rfl
    rw [hstep, ih]
    by_cases hh : trait = head
    · subst hh
      rw [Assoc.lookup_insert_self, if_pos List.mem_cons_self, List.count_cons_self,
        Function.iterate_succ_apply, Option.getD_some]
      split_ifs with hm
      · rfl
      · rw [List.count_eq_zero_of_not_mem hm, Function.iterate_zero_apply]
    · rw [Assoc.lookup_insert_of_ne _ _ hh, List.count_cons_of_ne (Ne.symm hh)]
      simp [hh]

theorem iterate_tail_cons (t : Ty) (n : Nat) (ts : List Ty) :
    List.tail^[n] ((t :: ·)^[n] ts) = ts := by
  have hinv : Function.LeftInverse List.tail (t :: · : List Ty → List Ty) := fun _ => rfl
  exact hinv.iterate n ts

variable {t : Ty} {traits : List String} {is js ms : List (String × List Ty)}

/-- What was known is known after the assumption is taken back. -/
theorem knows_released (hm : Knows ms (update (t :: ·) traits is)) :
    Knows (update List.tail traits ms) is := by
  intro trait ts hts
  have hmid := hm trait
  rw [lookup_update] at hmid ⊢
  split_ifs at hmid ⊢ with hmem
  · rw [hts, Option.getD_some] at hmid
    rw [hmid _ rfl, Option.getD_some, iterate_tail_cons]
  · exact hmid ts hts

/-- Whoever knows what was known after the assumption was taken back knows, with the assumption,
what was known under it. -/
theorem knows_assumed (hm : Knows ms (update (t :: ·) traits is))
    (hj : Knows js (update List.tail traits ms)) : Knows (update (t :: ·) traits js) ms := by
  intro trait ts hts
  have hmid := hm trait
  have hend := hj trait
  rw [lookup_update] at hmid hend ⊢
  split_ifs at hmid hend ⊢ with hmem
  · have hentry := hmid _ rfl
    rw [hts] at hentry
    rw [hts, Option.getD_some, Option.some.inj hentry, iterate_tail_cons] at hend
    rw [hend _ rfl, Option.getD_some, Option.some.inj hentry]
  · exact hend ts hts

end Typing

namespace Rule

theorem implementing_of_knows {is js : List (String × List Ty)} (h : Knows js is)
    {traits : List String} {ts : List Ty} (hts : implementing is traits = .ok ts) :
    implementing js traits = .ok ts := by
  induction traits generalizing ts with
  | nil => exact hts
  | cons trait traits ih =>
    rw [implementing] at hts ⊢
    split at hts
    · cases hts
    · next us hus =>
      split at hts
      · cases hts
      · next vs hvs =>
        rw [h trait us hus, ih hvs]
        exact hts

/-- Bounds that are met stay so. -/
theorem bounds_of_knows {is js : List (String × List Ty)} (h : Knows js is)
    {line line' : Option Nat} {bs : List String} {fn fn' : Expr} {arg : Ty}
    (hb : bounds is line bs fn arg = .ok ()) : bounds js line' bs fn' arg = .ok () := by
  unfold bounds at hb ⊢
  split_ifs at hb ⊢ with hbs
  · rfl
  · split at hb
    · cases hb
    · next ts hts =>
      split_ifs at hb with hany
      rw [implementing_of_knows h hts]
      exact if_pos hany

/-- A type application, all said: the bounds are met, and the body gets the argument. -/
theorem run_tapp_eq_ok {line : Option Nat} {fn : Expr} {q arg t : Ty} {s s' : TypingState} :
    (tapp line fn q arg).run s = .ok (t, s') ↔
      ∃ l x bs body, q = .all l x bs body ∧ bounds s.instances line bs fn arg = .ok () ∧
        t = ((body.subst x arg).run s.drawn).1 ∧
        s' = { s with drawn := ((body.subst x arg).run s.drawn).2 } := by
  constructor
  · intro h
    unfold tapp at h
    split at h
    · next l x bs body =>
      obtain ⟨s₀, s₁, hget, h⟩ := run_bind_eq_ok h
      obtain ⟨rfl, rfl⟩ := Prod.mk.inj (Except.ok.inj hget)
      obtain ⟨u, s₂, hbounds, hsubst⟩ := run_bind_eq_ok h
      obtain ⟨hok, rfl⟩ := run_lift_eq_ok hbounds
      obtain ⟨rfl, rfl⟩ := Prod.mk.inj (Except.ok.inj hsubst)
      exact ⟨l, x, bs, body, rfl, hok, rfl, rfl⟩
    · cases h
  · rintro ⟨l, x, bs, body, rfl, hb, rfl, rfl⟩
    unfold tapp
    simp only [StateT.run_bind, StateT.run_get, pure_bind]
    rw [hb]
    rfl

end Rule

section Reaches

variable {α β : Type}

/-- From every state that has drawn `j` names and knows the instances, the typing succeeds, and
what it finds has the property at the counter where it ends. -/
def Reaches (j : Nat) (known : List (String × List Ty)) (found : α → Nat → Prop)
    (m : Typing α) : Prop :=
  ∀ s, j ≤ s.drawn → Knows s.instances known →
    ∃ a s', m.run s = .ok (a, s') ∧ s.drawn ≤ s'.drawn ∧ Knows s'.instances s.instances ∧
      found a s'.drawn

namespace Reaches

variable {j : Nat} {known : List (String × List Ty)} {found : α → Nat → Prop} {m : Typing α}

theorem later (h : Reaches j known found m) {i : Nat} (hi : j ≤ i) : Reaches i known found m :=
  fun s hs hk => h s (hi.trans hs) hk

theorem knowing (h : Reaches j known found m) {more : List (String × List Ty)}
    (hmore : Knows more known) : Reaches j more found m :=
  fun s hs hk => h s hs (hk.trans hmore)

theorem pure {a : α} (h : ∀ i, j ≤ i → found a i) : Reaches j known found (Pure.pure a) :=
  fun s hs _ => ⟨a, s, rfl, le_rfl, .refl _, h s.drawn hs⟩

/-- One typing after another. -/
theorem bind (h : Reaches j known found m) {f : α → Typing β} {found' : β → Nat → Prop}
    (hf : ∀ a i, j ≤ i → found a i → Reaches i known found' (f a)) :
    Reaches j known found' (m >>= f) := by
  intro s hs hk
  obtain ⟨a, s₁, hrun, hdrawn, hknows, hfound⟩ := h s hs hk
  obtain ⟨b, s₂, hrun', hdrawn', hknows', hfound'⟩ :=
    hf a s₁.drawn (hs.trans hdrawn) hfound s₁ le_rfl (hknows.trans hk)
  exact ⟨b, s₂, (run_bind_of_ok hrun).trans hrun', hdrawn.trans hdrawn', hknows'.trans hknows,
    hfound'⟩

theorem lift {e : Except TypeError α} {a : α} (he : e = .ok a) (h : ∀ i, j ≤ i → found a i) :
    Reaches j known found (liftM e) :=
  he ▸ pure h

theorem run_eq (h : Reaches j known found m) {s s' : TypingState} {a : α} (hj : j ≤ s.drawn)
    (hk : Knows s.instances known) (hrun : m.run s = .ok (a, s')) : found a s'.drawn := by
  obtain ⟨b, s₁, hrun', -, -, hfound⟩ := h s hj hk
  rw [hrun] at hrun'
  obtain ⟨rfl, rfl⟩ := Prod.mk.inj (Except.ok.inj hrun')
  exact hfound

end Reaches

end Reaches

end TraitCalculus
