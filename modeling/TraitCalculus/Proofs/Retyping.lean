import Mathlib
import TraitCalculus.Proofs.Matching
import TraitCalculus.Proofs.RepeatedRuns

/-! Typing an expression again. The type that is found the second time is like the first one:
alpha-equivalent, and the same up to names that were drawn on the way. Where the rules compare
types, no drawn name can be in them, so the second time succeeds as the first did; but two types
of one expression count as the same only if no name was drawn for them. -/
namespace TraitCalculus

/-- All types that names stand for are settled. -/
def Scope.Settled (k : Nat) (Γ : Scope Entry) : Prop :=
  ∀ x t, Γ.get? x = some (.term t) → t.Settled k

theorem Scope.Settled.extend_term {k : Nat} {Γ : Scope Entry} (h : Γ.Settled k) (x : String)
    {t : Ty} (ht : t.Settled k) : (Γ.extend x (.term t)).Settled k := by
  intro y u hu
  by_cases hy : y = x
  · rw [hy, get?_extend_self] at hu
    exact Entry.term.inj (Option.some.inj hu) ▸ ht
  · rw [get?_extend_of_ne Γ _ hy] at hu
    exact h y u hu

theorem Scope.Settled.extend_type {k : Nat} {Γ : Scope Entry} (h : Γ.Settled k) (x : String) :
    (Γ.extend x .type).Settled k := by
  intro y u hu
  by_cases hy : y = x
  · rw [hy, get?_extend_self] at hu
    cases hu
  · rw [get?_extend_of_ne Γ _ hy] at hu
    exact h y u hu

namespace Ty

theorem settled_basic {x : String} (hx : x ∈ basicNames) (k : Nat) :
    (name none x).Settled k := by
  intro w hw
  rw [names, List.mem_singleton] at hw
  subst hw
  have hsource : ∀ y ∈ basicNames, '$' ∉ y.toList := by decide
  exact SourceName.old (hsource w hx) k

/-- A type is settled that counts as the same as one found after its last draw: the two have
drawn no common name. -/
theorem settled_of_same {k i : Nat} {s t : Ty} (hs : s.Settled i)
    (ht : ∀ w ∈ t.names, OldName k w ∨ ¬OldName i w) (h : s.same t = true) :
    s.Settled k ∧ t.Settled k := by
  have hboth : ∀ w ∈ s.names, OldName k w := by
    intro w hw
    apply (ht w ((mem_names_of_same h w).mp hw)).resolve_right
    exact fun hn => hn (hs w hw)
  exact ⟨hboth, fun w hw => hboth w ((mem_names_of_same h w).mpr hw)⟩

theorem settled_of_same_settled {k : Nat} {s t : Ty} (ht : t.Settled k) (h : s.same t = true) :
    s.Settled k :=
  fun w hw => ht w ((mem_names_of_same h w).mp hw)

end Ty

/-- What typing finds, from one state to another: all names of the type that are not old at `k`
were drawn between the two. -/
structure Found (k : Nat) (s : TypingState) (t : Ty) (s' : TypingState) : Prop where
  drawn : s.drawn ≤ s'.drawn
  knows : Knows s'.instances s.instances
  names : ∀ w ∈ t.names, OldName k w ∨ (¬OldName s.drawn w ∧ OldName s'.drawn w)
  unnested : t.Unnested k

namespace Found

variable {k : Nat} {s s' s'' : TypingState} {t u : Ty}

theorem of_settled (ht : t.Settled k) (hd : s.drawn ≤ s'.drawn)
    (hk : Knows s'.instances s.instances) : Found k s t s' :=
  ⟨hd, hk, fun w hw => Or.inl (ht w hw), ht.unnested⟩

theorem old (h : Found k s t s') (hk : k ≤ s.drawn) : t.Settled s'.drawn := by
  intro w hw
  rcases h.names w hw with ho | ho
  · exact ho.mono (hk.trans h.drawn)
  · exact ho.2

theorem apart (h : Found k s t s') : ∀ w ∈ t.names, OldName k w ∨ ¬OldName s.drawn w :=
  fun w hw => (h.names w hw).imp_right And.left

/-- A part of the type, seen from an earlier to a later state. -/
theorem part (h : Found k s t s') {s₀ s₁ : TypingState} (hn : ∀ w ∈ u.names, w ∈ t.names)
    (hu : u.Unnested k) (h₀ : s₀.drawn ≤ s.drawn) (h₁ : s'.drawn ≤ s₁.drawn)
    (hk : Knows s₁.instances s₀.instances) : Found k s₀ u s₁ where
  drawn := (h₀.trans h.drawn).trans h₁
  knows := hk
  names := fun w hw => (h.names w (hn w hw)).imp_right fun ho =>
    ⟨fun hold => ho.1 (hold.mono h₀), ho.2.mono h₁⟩
  unnested := hu

theorem widen (h : Found k s t s') {s₀ s₁ : TypingState} (h₀ : s₀.drawn ≤ s.drawn)
    (h₁ : s'.drawn ≤ s₁.drawn) (hk : Knows s₁.instances s₀.instances) : Found k s₀ t s₁ :=
  h.part (fun _ hw => hw) h.unnested h₀ h₁ hk

end Found

namespace Expr

attribute [local simp] bare bareItems bareFields

theorem bare_withType (e : Expr) (t : Ty) : (e.withType t).bare = e.bare := by
  cases e <;> rfl

theorem typeNames_withType (e : Expr) (t : Ty) : (e.withType t).typeNames = e.typeNames := by
  cases e <;> rfl

theorem line_bare (e : Expr) : e.bare.line = e.line := by
  cases e <;> rfl

/-- The second result is like the first, and its names are old at `i`. -/
structure Like (k : Nat) (r r' : Expr × Ty) (i : Nat) : Prop where
  alike : r.2.Alike k r'.2
  unnested : r'.2.Unnested k
  old : r'.2.Settled i
  bare : r'.1.bare = r.1.bare

namespace Like

variable {k i : Nat} {r r' : Expr × Ty}

theorem eq_of_settled (h : Like k r r' i) (hr : r.2.Settled k) : r'.2 = r.2 :=
  h.alike.eq_of_settled hr

theorem annotate {e e' : Expr} {t t' : Ty} (hb : e'.bare = e.bare) (ha : t.Alike k t')
    (hu : t'.Unnested k) (ho : t'.Settled i) : Like k (Expr.annotate e t) (Expr.annotate e' t') i :=
  ⟨ha, hu, ho, by simpa [Expr.annotate, bare_withType] using hb⟩

end Like

/-- From every state later than the counter `k` that knows the instances, typing gives a result
like `r`. -/
abbrev Repeats (k : Nat) (known : List (String × List Ty)) (r : Expr × Ty)
    (m : Typing (Expr × Ty)) : Prop :=
  Reaches k known (Like k r) m

section Forms

variable {k i : Nat} {known : List (String × List Ty)} {rule : AppRule} {Γ : Scope Entry}
  {n n' : Note}

/-- A rule whose operands are settled gives the same type again. -/
theorem reaches_rule {e e' : Expr} {t : Ty} {rule : Except TypeError Ty} (hk : k ≤ i)
    (hb : e'.bare = e.bare) (ht : t.Settled k) (hrule : rule = .ok t) :
    Reaches i known (Like k (annotate e t))
      (do return annotate e' (← (liftM rule : Typing Ty))) := by
  have hlift : Reaches i known (fun u _ => u = t) (liftM rule : Typing Ty) :=
    Reaches.lift hrule fun _ _ => rfl
  apply hlift.bind
  rintro u j hj rfl
  apply Reaches.pure
  intro j' hj'
  exact .annotate hb (.refl k _) ht.unnested (ht.mono (hk.trans (hj.trans hj')))

theorem repeats_lam {x : String} {t s : Ty} {body b : Expr} (hn : n'.line = n.line)
    (ht : t.Settled k)
    (hbody : Repeats k known (b, s) (body.typeWith rule (Γ.extend x (.term t)))) :
    Repeats k known (annotate (lam n x (.typed t) b) (.arrow none t s))
      ((lam n' x (.typed t) body).typeWith rule Γ) := by
  apply hbody.bind
  rintro ⟨b', s'⟩ i hi hb
  apply Reaches.pure
  intro j hj
  apply Like.annotate
  · simp [hn, hb.bare]
  · exact (Ty.Alike.refl k t).arrow hb.alike
  · exact ⟨ht.unnested, hb.unnested⟩
  · exact Ty.Settled.arrow_iff.mpr ⟨ht.mono (hi.trans hj), hb.old.mono hj⟩

theorem repeats_cond {c y z c₁ y₁ z₁ : Expr} {s t u v : Ty} (hn : n'.line = n.line)
    (hc : Repeats k known (c₁, s) (c.typeWith rule Γ))
    (hy : Repeats k known (y₁, t) (y.typeWith rule Γ))
    (hz : Repeats k known (z₁, u) (z.typeWith rule Γ)) (hs : s.Settled k) (ht : t.Settled k)
    (hu : u.Settled k) (hv : v.Settled k) (hrule : Rule.cond n.line s t u = .ok v) :
    Repeats k known (annotate (cond n c₁ y₁ z₁) v) ((cond n' c y z).typeWith rule Γ) := by
  apply hc.bind
  rintro ⟨c', s'⟩ i hi hc'
  apply (hy.later hi).bind
  rintro ⟨y', t'⟩ i' hi' hy'
  apply (hz.later (hi.trans hi')).bind
  rintro ⟨z', u'⟩ i'' hi'' hz'
  obtain rfl : s' = s := hc'.eq_of_settled hs
  obtain rfl : t' = t := hy'.eq_of_settled ht
  obtain rfl : u' = u := hz'.eq_of_settled hu
  apply reaches_rule ((hi.trans hi').trans hi'') _ hv (hn ▸ hrule)
  simp [hn, hc'.bare, hy'.bare, hz'.bare]

theorem repeats_bin {op : BinOp} {l r l₁ r₁ : Expr} {s t v : Ty} (hn : n'.line = n.line)
    (hl : Repeats k known (l₁, s) (l.typeWith rule Γ))
    (hr : Repeats k known (r₁, t) (r.typeWith rule Γ)) (hs : s.Settled k) (ht : t.Settled k)
    (hv : v.Settled k) (hrule : Rule.bin n.line op s t = .ok v) :
    Repeats k known (annotate (bin n op l₁ r₁) v) ((bin n' op l r).typeWith rule Γ) := by
  apply hl.bind
  rintro ⟨l', s'⟩ i hi hl'
  apply (hr.later hi).bind
  rintro ⟨r', t'⟩ i' hi' hr'
  obtain rfl : s' = s := hl'.eq_of_settled hs
  obtain rfl : t' = t := hr'.eq_of_settled ht
  apply reaches_rule (hi.trans hi') _ hv (hn ▸ hrule)
  simp [hn, hl'.bare, hr'.bare]

theorem repeats_un {op : UnOp} {e e₁ : Expr} {t v : Ty} (hn : n'.line = n.line)
    (he : Repeats k known (e₁, t) (e.typeWith rule Γ)) (ht : t.Settled k) (hv : v.Settled k)
    (hrule : Rule.un n.line op t = .ok v) :
    Repeats k known (annotate (un n op e₁) v) ((un n' op e).typeWith rule Γ) := by
  apply he.bind
  rintro ⟨e', t'⟩ i hi he'
  obtain rfl : t' = t := he'.eq_of_settled ht
  apply reaches_rule hi _ hv (hn ▸ hrule)
  simp [hn, he'.bare]

theorem repeats_ascribe {e e₁ : Expr} {t s v : Ty} (hn : n'.line = n.line)
    (he : Repeats k known (e₁, s) (e.typeWith rule Γ)) (hs : s.Settled k) (hv : v.Settled k)
    (hrule : Rule.ascribe n.line t s = .ok v) :
    Repeats k known (annotate (ascribe n e₁ t) v) ((ascribe n' e t).typeWith rule Γ) := by
  apply he.bind
  rintro ⟨e', s'⟩ i hi he'
  obtain rfl : s' = s := he'.eq_of_settled hs
  apply reaches_rule hi _ hv (hn ▸ hrule)
  simp [hn, he'.bare]

theorem repeats_var {x : String} {t : Ty} (hn : n'.line = n.line) (ht : t.Settled k)
    (hrule : Rule.var Γ n.line x = .ok t) :
    Repeats k known (annotate (var n x) t) ((var n' x).typeWith rule Γ) := by
  apply reaches_rule le_rfl _ ht (hn ▸ hrule)
  simp [hn]

theorem settled_lit (v : Value) (k : Nat) : (Rule.lit v).Settled k := by
  cases v with
  | int | text | bool => exact Ty.settled_basic (by decide) k

theorem repeats_val {v : Value} (hn : n'.line = n.line) :
    Repeats k known (annotate (val n v) (Rule.lit v)) ((val n' v).typeWith rule Γ) := by
  apply Reaches.pure
  intro i hi
  have ht := settled_lit v k
  exact .annotate (by simp [hn]) (.refl k _) ht.unnested (ht.mono hi)

theorem repeats_nil (hn : n'.line = n.line) :
    Repeats k known (annotate (list n []) .emptyList) ((list n' []).typeWith rule Γ) := by
  apply Reaches.pure
  intro i hi
  exact .annotate (by simp [hn]) (.refl k _) trivial (by simp [Ty.Settled, Ty.names])

theorem repeats_proj {e e₁ : Expr} {label : String} {s t : Ty} (hn : n'.line = n.line)
    (he : Repeats k known (e₁, s) (e.typeWith rule Γ))
    (hrule : Rule.proj n.line s label = .ok t) :
    Repeats k known (annotate (proj n e₁ label) t) ((proj n' e label).typeWith rule Γ) := by
  obtain ⟨l, fields, rfl, hfield⟩ := Rule.proj_ok hrule
  apply he.bind
  rintro ⟨e', s'⟩ i hi he'
  obtain ⟨fields', rfl, hfields⟩ := he'.alike.of_record
  obtain ⟨t', hfield', ht'⟩ := hfields.lookup hfield
  have hmem : (label, t') ∈ fields' := Assoc.mem_of_lookup hfield'
  have hrule' : Rule.proj n'.line (.record l fields') label = .ok t' := by
    rw [Rule.proj, hfield']
  have hlift : Reaches i known (fun u _ => u = t')
      (liftM (Rule.proj n'.line (.record l fields') label) : Typing Ty) :=
    Reaches.lift hrule' fun _ _ => rfl
  apply hlift.bind
  rintro u j hj rfl
  apply Reaches.pure
  intro j' hj'
  apply Like.annotate
  · simp [hn, he'.bare]
  · exact ht'
  · exact Ty.unnestedFields_iff.mp he'.unnested (label, u) hmem
  · exact (Ty.Settled.record_iff.mp he'.old (label, u) hmem).mono (hj.trans hj')

theorem repeats_tlam {x : String} {bounds : List String} {s : Ty} {body b : Expr}
    {ms : List (String × List Ty)} (hn : n'.line = n.line) (hx : OldName k x)
    (hknown : ∃ is, Knows ms (Typing.update (Ty.name none x :: ·) bounds is) ∧
      known = Typing.update List.tail bounds ms)
    (hbody : Repeats k ms (b, s) (body.typeWith rule (Γ.extend x .type))) :
    Repeats k known (annotate (tlam n x bounds b) (.all none x bounds s))
      ((tlam n' x bounds body).typeWith rule Γ) := by
  obtain ⟨is, his, rfl⟩ := hknown
  intro st hst hk
  have hassumed := Typing.knows_assumed his hk
  obtain ⟨⟨b', s'⟩, st', hrun, hdrawn, hknows, hlike⟩ :=
    hbody { st with instances := Typing.update (Ty.name none x :: ·) bounds st.instances } hst
      hassumed
  refine ⟨annotate (tlam n' x bounds b') (.all none x bounds s'),
    { st' with instances := Typing.update List.tail bounds st'.instances }, ?_, hdrawn,
    Typing.knows_released hknows, ?_⟩
  · rw [typeWith, run_bind_of_ok (Typing.run_assume _ _ _), run_bind_of_ok hrun]
    exact run_bind_of_ok (Typing.run_release bounds st')
  · apply Like.annotate
    · simp [hn, hlike.bare]
    · exact hlike.alike.all none x bounds
    · exact ⟨Or.inl hx, hlike.unnested⟩
    · exact Ty.Settled.all_iff.mpr ⟨hx.mono (hst.trans hdrawn), hlike.old⟩

theorem repeats_tapp {f f₁ : Expr} {t u : Ty} {l : Option Nat} {x : String} {bs : List String}
    {body : Ty} {j : Nat} (hn : n'.line = n.line)
    (hf : Repeats k known (f₁, .all l x bs body) (f.typeWith rule Γ)) (ht : t.Settled k)
    (hk : k ≤ j) (hold : (Ty.all l x bs body).Settled j)
    (hu : (Ty.all l x bs body).Unnested k)
    (hbounds : Rule.bounds known n.line bs f₁ t = .ok ())
    (hinst : u = ((body.subst x t).run j).1) :
    Repeats k known (annotate (tapp n f₁ t) u) ((tapp n' f t).typeWith rule Γ) := by
  apply hf.bind
  rintro ⟨f', s'⟩ i hi hf'
  obtain ⟨x', body', rfl, -⟩ := hf'.alike.of_all
  have hrule : Reaches i known
      (fun v j => u.Alike k v ∧ v.Unnested k ∧ v.Settled j)
      (Rule.tapp n'.line f' (.all l x' bs body') t) := by
    intro st hst hknows
    have hold' := hf'.old.mono hst
    have hki : k ≤ st.drawn := hi.trans hst
    obtain ⟨hx', hbody'⟩ := Ty.Settled.all_iff.mp hold'
    refine ⟨_, _, Rule.run_tapp_eq_ok.mpr ⟨l, x', bs, body', rfl,
      Rule.bounds_of_knows hknows hbounds, rfl, rfl⟩, ?_, .refl _, ?_, ?_, ?_⟩
    · exact Ty.substIn_drawn_le body' [] _ st.drawn
    · rw [hinst]
      exact Ty.alike_subst hf'.alike hk hki hold hold' hu hf'.unnested ht
    · apply Ty.unnested_substIn body' hf'.unnested.2 hbody' _ hki
      rintro y new hy
      obtain ⟨rfl, rfl⟩ := Prod.mk.inj (Option.some.inj hy)
      exact ht
    · apply Ty.names_substIn body' [] _ st.drawn hbody' (by simp)
      rintro y new hy
      obtain ⟨rfl, rfl⟩ := Prod.mk.inj (Option.some.inj hy)
      exact ht.mono hki
  apply hrule.bind
  rintro v j' hj' ⟨hv, hvu, hvo⟩
  apply Reaches.pure
  intro j'' hj''
  apply Like.annotate
  · simp [hn, hf'.bare]
  · exact hv
  · exact hvu
  · exact hvo.mono hj''

theorem repeats_app {f a f₁ a₁ : Expr} {l : Option Nat} {dom cod t : Ty} (hn : n'.line = n.line)
    (hrule : ∀ g cod, rule Γ n' (g, .arrow l dom cod) = explicitApp Γ n' (g, .arrow l dom cod))
    (hf : Repeats k known (f₁, .arrow l dom cod) (f.typeWith rule Γ))
    (ha : Repeats k known (a₁, t) (a.typeWith rule Γ)) (hdom : dom.Settled k) (ht : t.Settled k)
    (hsame : dom.same t = true) :
    Repeats k known (annotate (app n f₁ a₁) cod) ((app n' f a).typeWith rule Γ) := by
  apply hf.bind
  rintro ⟨f', s'⟩ i hi hf'
  apply (ha.later hi).bind
  rintro ⟨a', t'⟩ i' hi' ha'
  obtain ⟨dom', cod', rfl, hdom', hcod'⟩ := hf'.alike.of_arrow
  obtain rfl : dom' = dom := hdom'.eq_of_settled hdom
  obtain rfl : t' = t := ha'.eq_of_settled ht
  rw [hrule f' cod']
  have hlift : Reaches i' known (fun u _ => u = cod')
      (liftM (Rule.app n'.line (.arrow l dom' cod') t') : Typing Ty) :=
    Reaches.lift (by rw [Rule.app, if_pos hsame]) fun _ _ => rfl
  apply hlift.bind
  rintro u j hj rfl
  apply Reaches.pure
  intro j' hj'
  apply Like.annotate
  · simp [hn, hf'.bare, ha'.bare]
  · exact hcod'
  · exact hf'.unnested.2
  · exact (Ty.Settled.arrow_iff.mp hf'.old).2.mono (hi'.trans (hj.trans hj'))

/-- Elements of a list whose types were compared, and which are settled therefore. -/
abbrev RepeatsItems (k : Nat) (known : List (String × List Ty)) (es : List Expr)
    (m : Typing (List Expr)) : Prop :=
  Reaches k known (fun es' _ => bareItems es' = bareItems es) m

theorem repeatsItems_nil {t : Ty} : RepeatsItems k known [] (typeItems rule Γ t []) := by
  exact Reaches.pure fun _ _ => rfl

theorem repeatsItems_cons {e e₁ : Expr} {es es₁ : List Expr} {s t : Ty}
    (he : Repeats k known (e₁, s) (e.typeWith rule Γ)) (hs : s.Settled k)
    (hsame : t.same s = true) (hes : RepeatsItems k known es₁ (typeItems rule Γ t es)) :
    RepeatsItems k known (e₁ :: es₁) (typeItems rule Γ t (e :: es)) := by
  apply he.bind
  rintro ⟨e', s'⟩ i hi he'
  obtain rfl : s' = s := he'.eq_of_settled hs
  simp only [if_pos hsame]
  apply (hes.later hi).bind
  intro es' j hj hes'
  exact Reaches.pure fun _ _ => by rw [bareItems, bareItems, he'.bare, hes']

theorem repeats_list {e e₁ : Expr} {es es₁ : List Expr} {t : Ty} (hn : n'.line = n.line)
    (he : Repeats k known (e₁, t) (e.typeWith rule Γ)) (ht : es = [] ∨ t.Settled k)
    (hes : RepeatsItems k known es₁ (typeItems rule Γ t es)) :
    Repeats k known (annotate (list n (e₁ :: es₁)) (.list none t))
      ((list n' (e :: es)).typeWith rule Γ) := by
  apply he.bind
  rintro ⟨e', t'⟩ i hi he'
  have hitems : RepeatsItems k known es₁ (typeItems rule Γ t' es) := by
    rcases ht with rfl | ht
    · exact hes
    · obtain rfl : t' = t := he'.eq_of_settled ht
      exact hes
  apply (hitems.later hi).bind
  intro es' j hj hes'
  apply Reaches.pure
  intro j' hj'
  apply Like.annotate
  · simp [hn, he'.bare, hes']
  · exact he'.alike.list
  · exact he'.unnested
  · exact he'.old.mono (hj.trans hj')

/-- Fields with types like those that were found. -/
structure LikeFields (k : Nat) (r r' : List (String × Expr) × List (String × Ty)) (i : Nat) :
    Prop where
  alike : Ty.Alike.Fields k r.2 r'.2
  unnested : ∀ f ∈ r'.2, f.2.Unnested k
  old : ∀ f ∈ r'.2, f.2.Settled i
  bare : bareFields r'.1 = bareFields r.1

abbrev RepeatsFields (k : Nat) (known : List (String × List Ty))
    (r : List (String × Expr) × List (String × Ty))
    (m : Typing (List (String × Expr) × List (String × Ty))) : Prop :=
  Reaches k known (LikeFields k r) m

theorem repeatsFields_nil : RepeatsFields k known ([], []) (typeFields rule Γ []) := by
  exact Reaches.pure fun _ _ => ⟨.nil, by simp, by simp, rfl⟩

theorem repeatsFields_cons {label : String} {e e₁ : Expr} {fs fs₁ : List (String × Expr)} {t : Ty}
    {ts : List (String × Ty)} (he : Repeats k known (e₁, t) (e.typeWith rule Γ))
    (hfs : RepeatsFields k known (fs₁, ts) (typeFields rule Γ fs)) :
    RepeatsFields k known ((label, e₁) :: fs₁, (label, t) :: ts)
      (typeFields rule Γ ((label, e) :: fs)) := by
  apply he.bind
  rintro ⟨e', t'⟩ i hi he'
  apply (hfs.later hi).bind
  rintro ⟨fs', ts'⟩ j hj hfs'
  apply Reaches.pure
  intro j' hj'
  have hold : t'.Settled j' := he'.old.mono (hj.trans hj')
  refine ⟨.cons ⟨rfl, he'.alike⟩ hfs'.alike, ?_, ?_, ?_⟩
  · exact List.forall_mem_cons.mpr ⟨he'.unnested, hfs'.unnested⟩
  · exact List.forall_mem_cons.mpr ⟨hold, fun f hf => (hfs'.old f hf).mono hj'⟩
  · rw [bareFields, bareFields, he'.bare, hfs'.bare]

theorem repeats_record {fs fs₁ : List (String × Expr)} {ts : List (String × Ty)}
    (hn : n'.line = n.line) (hfs : RepeatsFields k known (fs₁, ts) (typeFields rule Γ fs)) :
    Repeats k known (annotate (record n fs₁) (.record none ts))
      ((record n' fs).typeWith rule Γ) := by
  apply hfs.bind
  rintro ⟨fs', ts'⟩ i hi hfs'
  apply Reaches.pure
  intro j hj
  apply Like.annotate
  · simp [hn, hfs'.bare]
  · exact .record none hfs'.alike
  · exact Ty.unnestedFields_iff.mpr hfs'.unnested
  · exact Ty.Settled.record_iff.mpr fun f hf => (hfs'.old f hf).mono hj

end Forms

/-- What is known of an expression that was typed: where the names of its type come from, that
the tree it leaves has no names drawn on the way, and that typing it again, or the tree it
leaves, gives a result like the first. -/
structure Outcome (k : Nat) (Γ : Scope Entry) (s : TypingState) (m : Typing (Expr × Ty))
    (r : Expr × Ty) (s' : TypingState) : Prop where
  found : Found k s r.2 s'
  tree : ∀ w ∈ r.1.typeNames, OldName k w
  again : Repeats k s'.instances r m
  explicit : Repeats k s'.instances r (r.1.explicit Γ)

/-- Typing by the rule can be repeated. -/
def Stable (rule : AppRule) (e : Expr) : Prop :=
  ∀ {k : Nat} {Γ : Scope Entry} {s s' : TypingState} {r : Expr × Ty}, Γ.Settled k →
    (∀ w ∈ e.typeNames, OldName k w) → k ≤ s.drawn → (e.typeWith rule Γ).run s = .ok (r, s') →
    Outcome k Γ s (e.typeWith rule Γ) r s'

section Stable

variable {k : Nat} {rule : AppRule} {Γ : Scope Entry} {s s' : TypingState}

/-- An outcome whose type is settled: the rule of the form gives it again from settled types. -/
theorem Outcome.of_settled {e : Expr} {t : Ty} {m : Typing (Expr × Ty)} (ht : t.Settled k)
    (hd : s.drawn ≤ s'.drawn) (hk : Knows s'.instances s.instances)
    (htree : ∀ w ∈ e.typeNames, OldName k w) (ha : Repeats k s'.instances (annotate e t) m)
    (he : Repeats k s'.instances (annotate e t) ((e.withType t).explicit Γ)) :
    Outcome k Γ s m (annotate e t) s' where
  found := .of_settled ht hd hk
  tree := by simpa [annotate, typeNames_withType] using htree
  again := ha
  explicit := he

theorem stable_items (es : List Expr) (ih : ∀ e ∈ es, Stable rule e) {t : Ty} {es' : List Expr}
    (hΓ : Γ.Settled k) (he : ∀ e ∈ es, ∀ w ∈ e.typeNames, OldName k w) (hk : k ≤ s.drawn)
    (ht : t.Settled s.drawn) (h : (typeItems rule Γ t es).run s = .ok (es', s')) :
    s.drawn ≤ s'.drawn ∧ Knows s'.instances s.instances ∧
      ((es = [] ∧ es' = []) ∨ t.Settled k) ∧ (∀ e ∈ es', ∀ w ∈ e.typeNames, OldName k w) ∧
      RepeatsItems k s'.instances es' (typeItems rule Γ t es) ∧
      RepeatsItems k s'.instances es' (typeItems explicitApp Γ t es') := by
  induction es generalizing s es' with
  | nil =>
    obtain ⟨rfl, rfl⟩ := run_pure_eq_ok h
    exact ⟨le_rfl, .refl _, Or.inl ⟨rfl, rfl⟩, by simp, repeatsItems_nil, repeatsItems_nil⟩
  | cons e es ihs =>
    obtain ⟨heold, hesold⟩ := List.forall_mem_cons.mp he
    obtain ⟨ihe, ihes⟩ := List.forall_mem_cons.mp ih
    obtain ⟨⟨e', u⟩, s₁, he', h⟩ := run_bind_eq_ok h
    have hout := ihe hΓ heold hk he'
    simp only at h
    split_ifs at h with htu
    · obtain ⟨rest, hrest, rfl⟩ := run_bind_pure_eq_ok h
      have hd₁ := hout.found.drawn
      -- the types have no drawn name in common, so there is none in either
      obtain ⟨htk, huk⟩ := Ty.settled_of_same ht hout.found.apart htu
      obtain ⟨hd₂, hk₂, -, htree, hagain, hexpl⟩ :=
        ihs ihes hesold (hk.trans hd₁) (ht.mono hd₁) hrest
      refine ⟨hd₁.trans hd₂, hk₂.trans hout.found.knows, Or.inr htk,
        List.forall_mem_cons.mpr ⟨hout.tree, htree⟩, ?_, ?_⟩
      · exact repeatsItems_cons (hout.again.knowing hk₂) huk htu hagain
      · exact repeatsItems_cons (hout.explicit.knowing hk₂) huk htu hexpl
    · cases h

theorem stable_fields (fs : List (String × Expr)) (ih : ∀ f ∈ fs, Stable rule f.2)
    {fs' : List (String × Expr)} {ts : List (String × Ty)} (hΓ : Γ.Settled k)
    (hf : ∀ f ∈ fs, ∀ w ∈ f.2.typeNames, OldName k w) (hk : k ≤ s.drawn)
    (h : (typeFields rule Γ fs).run s = .ok ((fs', ts), s')) :
    s.drawn ≤ s'.drawn ∧ Knows s'.instances s.instances ∧ (∀ f ∈ ts, Found k s f.2 s') ∧
      (∀ f ∈ fs', ∀ w ∈ f.2.typeNames, OldName k w) ∧
      RepeatsFields k s'.instances (fs', ts) (typeFields rule Γ fs) ∧
      RepeatsFields k s'.instances (fs', ts) (typeFields explicitApp Γ fs') := by
  induction fs generalizing s fs' ts with
  | nil =>
    obtain ⟨he, rfl⟩ := run_pure_eq_ok h
    obtain ⟨rfl, rfl⟩ := Prod.mk.inj he
    exact ⟨le_rfl, .refl _, by simp, by simp, repeatsFields_nil, repeatsFields_nil⟩
  | cons f fs ihs =>
    obtain ⟨label, e⟩ := f
    obtain ⟨heold, hfsold⟩ := List.forall_mem_cons.mp hf
    obtain ⟨ihe, ihfs⟩ := List.forall_mem_cons.mp ih
    obtain ⟨⟨e', t⟩, s₁, he', h⟩ := run_bind_eq_ok h
    obtain ⟨⟨rest, us⟩, s₂, hrest, hret⟩ := run_bind_eq_ok h
    obtain ⟨he, rfl⟩ := run_pure_eq_ok hret
    obtain ⟨rfl, rfl⟩ := Prod.mk.inj he
    have hout := ihe hΓ heold hk he'
    have hd₁ := hout.found.drawn
    obtain ⟨hd₂, hk₂, hfound, htree, hagain, hexpl⟩ := ihs ihfs hfsold (hk.trans hd₁) hrest
    have hknows := hk₂.trans hout.found.knows
    refine ⟨hd₁.trans hd₂, hknows, ?_, List.forall_mem_cons.mpr ⟨hout.tree, htree⟩, ?_, ?_⟩
    · exact List.forall_mem_cons.mpr ⟨hout.found.widen le_rfl hd₂ hknows,
        fun g hg => (hfound g hg).widen hd₁ le_rfl hknows⟩
    · exact repeatsFields_cons (hout.again.knowing hk₂) hagain
    · exact repeatsFields_cons (hout.explicit.knowing hk₂) hexpl

theorem settled_bin {op : BinOp} {l r t : Ty} (hl : l.Settled k) (h : op.HasType l r t) :
    t.Settled k := by
  cases h with
  | logic | equality | order | arith => exact Ty.settled_basic (by decide) k
  | sum => exact hl

/-- The operands of an operator are settled: each is compared with a basic type, or they are
compared with each other. -/
theorem settled_operands {op : BinOp} {l r t : Ty} {i : Nat} (hl : l.Settled i)
    (hr : ∀ w ∈ r.names, OldName k w ∨ ¬OldName i w) (h : op.HasType l r t) :
    l.Settled k ∧ r.Settled k := by
  have hint : Ty.int.Settled k := Ty.settled_basic (by decide) k
  have hbool : Ty.bool.Settled k := Ty.settled_basic (by decide) k
  cases h with
  | logic _ hl' hr' =>
    exact ⟨Ty.settled_of_same_settled hbool hl', Ty.settled_of_same_settled hbool hr'⟩
  | equality _ hlr | sum hlr _ => exact Ty.settled_of_same hl hr hlr
  | order _ hl' hr' | arith _ hl' hr' =>
    exact ⟨Ty.settled_of_same_settled hint hl', Ty.settled_of_same_settled hint hr'⟩

theorem settled_un {op : UnOp} {t u : Ty} (h : op.HasType t u) : t.Settled k ∧ u.Settled k := by
  have hint : Ty.int.Settled k := Ty.settled_basic (by decide) k
  have hbool : Ty.bool.Settled k := Ty.settled_basic (by decide) k
  cases h with
  | not ht => exact ⟨Ty.settled_of_same_settled hbool ht, hbool⟩
  | neg ht => exact ⟨Ty.settled_of_same_settled hint ht, hint⟩

/-- The names of an instance are those of the quantified type, settled ones, or drawn for it. -/
theorem found_instance {l : Option Nat} {x : String} {bs : List String} {body t : Ty}
    (h : Found k s (.all l x bs body) s') (hk : k ≤ s.drawn) (ht : t.Settled k) :
    Found k s ((body.subst x t).run s'.drawn).1
      { s' with drawn := ((body.subst x t).run s'.drawn).2 } := by
  have hold := Ty.Settled.all_iff.mp (h.old hk)
  have hks := hk.trans h.drawn
  have hnew (j : Nat) (hj : k ≤ j) : ∀ y new, some (x, t) = some (y, new) → new.Settled j := by
    rintro y new hy
    obtain ⟨rfl, rfl⟩ := Prod.mk.inj (Option.some.inj hy)
    exact ht.mono hj
  refine ⟨h.drawn.trans (Ty.substIn_drawn_le body [] _ s'.drawn), h.knows, ?_, ?_⟩
  · have horigin : ∀ w ∈ ((body.subst x t).run s'.drawn).1.names,
        OldName k w ∨ ¬OldName s.drawn w := by
      refine Ty.forall_names_substIn (P := fun w => OldName k w ∨ ¬OldName s.drawn w) body
        ?_ (by simp) ?_ ?_
      · exact fun w hw => h.apart w (List.mem_cons_of_mem x hw)
      · exact fun y new hy w hw => Or.inl (hnew k le_rfl y new hy w hw)
      · intro base j hj _
        exact Or.inr (not_oldName_freshName base (h.drawn.trans_lt hj))
    have hend := Ty.names_substIn body [] _ s'.drawn hold.2 (by simp) (hnew _ hks)
    exact fun w hw => (horigin w hw).imp_right fun ho => ⟨ho, hend w hw⟩
  · exact Ty.unnested_substIn body h.unnested.2 hold.2 (hnew k le_rfl) hks

/-- An application of a function that is not quantified. -/
theorem outcome_app {n : Note} {f a f₁ a₁ : Expr} {u v : Ty} {r : Expr × Ty}
    {s₁ s₂ : TypingState} (hk : k ≤ s.drawn)
    (hrule : ∀ l dom g cod,
      rule Γ n (g, .arrow l dom cod) = explicitApp Γ n (g, .arrow l dom cod))
    (hf : Outcome k Γ s (f.typeWith rule Γ) (f₁, u) s₁)
    (ha : Outcome k Γ s₁ (a.typeWith rule Γ) (a₁, v) s₂)
    (h : (explicitApp Γ n (f₁, u) (a₁, v)).run s₂ = .ok (r, s')) :
    Outcome k Γ s ((app n f a).typeWith rule Γ) r s' := by
  obtain ⟨t, ht, rfl⟩ := run_bind_pure_eq_ok h
  obtain ⟨hok, rfl⟩ := run_lift_eq_ok ht
  obtain ⟨l, dom, rfl, hsame⟩ := Rule.app_ok hok
  have hknows := ha.found.knows.trans hf.found.knows
  obtain ⟨hdom, hv⟩ := Ty.settled_of_same (Ty.Settled.arrow_iff.mp (hf.found.old hk)).1
    ha.found.apart hsame
  constructor
  · apply hf.found.part _ hf.found.unnested.2 le_rfl ha.found.drawn hknows
    exact fun w hw => List.mem_append_right dom.names hw
  · exact List.forall_mem_append.mpr ⟨hf.tree, ha.tree⟩
  · exact repeats_app rfl (hrule l dom) (hf.again.knowing ha.found.knows) ha.again hdom hv hsame
  · exact repeats_app rfl (fun _ _ => rfl) (hf.explicit.knowing ha.found.knows) ha.explicit hdom
      hv hsame

/-- Typing can be repeated for every expression if it can for applications. -/
theorem stable_typeWith (hrule : ∀ n f a, Stable rule f → Stable rule a → Stable rule (app n f a))
    (e : Expr) : Stable rule e := by
  induction e using Expr.induction with
  | lam n x p body ih =>
    intro k Γ s s' r hΓ he hk h
    cases p with
    | typed t =>
      obtain ⟨ht, hbody⟩ := List.forall_mem_append.mp he
      obtain ⟨⟨b, u⟩, s₁, hrun, hret⟩ := run_bind_eq_ok h
      obtain ⟨rfl, rfl⟩ := run_pure_eq_ok hret
      have hout := ih (hΓ.extend_term x ht) hbody hk hrun
      constructor
      · refine ⟨hout.found.drawn, hout.found.knows, ?_, ⟨Ty.Settled.unnested ht, hout.found.unnested⟩⟩
        exact List.forall_mem_append.mpr ⟨fun w hw => Or.inl (ht w hw), hout.found.names⟩
      · exact List.forall_mem_append.mpr ⟨ht, hout.tree⟩
      · exact repeats_lam rfl ht hout.again
      · exact repeats_lam rfl ht hout.explicit
    | _ => cases h
  | tlam n x bounds body ih =>
    intro k Γ s s' r hΓ he hk h
    obtain ⟨hx, hbody⟩ := List.forall_mem_cons.mp he
    obtain ⟨_, s₁, hassume, h⟩ := run_bind_eq_ok h
    rw [Typing.run_assume] at hassume
    obtain ⟨-, rfl⟩ := Prod.mk.inj (Except.ok.inj hassume)
    obtain ⟨⟨b, u⟩, s₂, hrun, h⟩ := run_bind_eq_ok h
    obtain ⟨_, s₃, hrelease, hret⟩ := run_bind_eq_ok h
    rw [Typing.run_release] at hrelease
    obtain ⟨-, rfl⟩ := Prod.mk.inj (Except.ok.inj hrelease)
    obtain ⟨rfl, rfl⟩ := run_pure_eq_ok hret
    have hout := ih (s := { s with instances := Typing.update (Ty.name none x :: ·) bounds s.instances })
      (hΓ.extend_type x) hbody hk hrun
    have hknows := hout.found.knows
    constructor
    · refine ⟨hout.found.drawn, Typing.knows_released hknows, ?_, ⟨Or.inl hx, hout.found.unnested⟩⟩
      exact List.forall_mem_cons.mpr ⟨Or.inl hx, hout.found.names⟩
    · exact List.forall_mem_cons.mpr ⟨hx, hout.tree⟩
    · exact repeats_tlam rfl hx ⟨_, hknows, rfl⟩ hout.again
    · exact repeats_tlam rfl hx ⟨_, hknows, rfl⟩ hout.explicit
  | cond n c y z ihc ihy ihz =>
    intro k Γ s s' r hΓ he hk h
    obtain ⟨hc, hyz⟩ := List.forall_mem_append.mp he
    obtain ⟨hy, hz⟩ := List.forall_mem_append.mp hyz
    obtain ⟨⟨c', t⟩, s₁, hcrun, h⟩ := run_bind_eq_ok h
    obtain ⟨⟨y', u⟩, s₂, hyrun, h⟩ := run_bind_eq_ok h
    obtain ⟨⟨z', v⟩, s₃, hzrun, h⟩ := run_bind_eq_ok h
    obtain ⟨w, hw, rfl⟩ := run_bind_pure_eq_ok h
    obtain ⟨hok, rfl⟩ := run_lift_eq_ok hw
    obtain ⟨hbool, hsame, rfl⟩ := Rule.cond_ok hok
    have hcout := ihc hΓ hc hk hcrun
    have hk₁ := hk.trans hcout.found.drawn
    have hyout := ihy hΓ hy hk₁ hyrun
    have hk₂ := hk₁.trans hyout.found.drawn
    have hzout := ihz hΓ hz hk₂ hzrun
    have ht : t.Settled k := Ty.settled_of_same_settled (Ty.settled_basic (by decide) k) hbool
    obtain ⟨hu, hv⟩ := Ty.settled_of_same (hyout.found.old hk₁) hzout.found.apart hsame
    have hzy := hzout.found.knows.trans hyout.found.knows
    apply Outcome.of_settled hu
    · exact hcout.found.drawn.trans (hyout.found.drawn.trans hzout.found.drawn)
    · exact hzy.trans hcout.found.knows
    · exact List.forall_mem_append.mpr ⟨hcout.tree,
        List.forall_mem_append.mpr ⟨hyout.tree, hzout.tree⟩⟩
    · exact repeats_cond rfl (hcout.again.knowing hzy) (hyout.again.knowing hzout.found.knows)
        hzout.again ht hu hv hu hok
    · exact repeats_cond rfl (hcout.explicit.knowing hzy)
        (hyout.explicit.knowing hzout.found.knows) hzout.explicit ht hu hv hu hok
  | bin n op l r ihl ihr =>
    intro k Γ s s' res hΓ he hk h
    obtain ⟨hl, hr⟩ := List.forall_mem_append.mp he
    obtain ⟨⟨l', t⟩, s₁, hlrun, h⟩ := run_bind_eq_ok h
    obtain ⟨⟨r', u⟩, s₂, hrrun, h⟩ := run_bind_eq_ok h
    obtain ⟨v, hv, rfl⟩ := run_bind_pure_eq_ok h
    obtain ⟨hok, rfl⟩ := run_lift_eq_ok hv
    have hlout := ihl hΓ hl hk hlrun
    have hrout := ihr hΓ hr (hk.trans hlout.found.drawn) hrrun
    obtain ⟨ht, hu⟩ := settled_operands (hlout.found.old hk) hrout.found.apart (Rule.bin_ok hok)
    have hvk := settled_bin ht (Rule.bin_ok hok)
    have hknows := hrout.found.knows
    apply Outcome.of_settled hvk
    · exact hlout.found.drawn.trans hrout.found.drawn
    · exact hknows.trans hlout.found.knows
    · exact List.forall_mem_append.mpr ⟨hlout.tree, hrout.tree⟩
    · exact repeats_bin rfl (hlout.again.knowing hknows) hrout.again ht hu hvk hok
    · exact repeats_bin rfl (hlout.explicit.knowing hknows) hrout.explicit ht hu hvk hok
  | un n op e ih =>
    intro k Γ s s' r hΓ he hk h
    obtain ⟨⟨e', t⟩, s₁, herun, h⟩ := run_bind_eq_ok h
    obtain ⟨v, hv, rfl⟩ := run_bind_pure_eq_ok h
    obtain ⟨hok, rfl⟩ := run_lift_eq_ok hv
    have hout := ih hΓ he hk herun
    obtain ⟨ht, hvk⟩ := settled_un (k := k) (Rule.un_ok hok)
    apply Outcome.of_settled hvk hout.found.drawn hout.found.knows
    · exact hout.tree
    · exact repeats_un rfl hout.again ht hvk hok
    · exact repeats_un rfl hout.explicit ht hvk hok
  | app n f a ihf iha => exact hrule n f a ihf iha
  | tapp n f t ih =>
    intro k Γ s s' r hΓ he hk h
    obtain ⟨hf, ht⟩ := List.forall_mem_append.mp he
    obtain ⟨⟨f', q⟩, s₁, hfrun, h⟩ := run_bind_eq_ok h
    obtain ⟨u, hu, rfl⟩ := run_bind_pure_eq_ok h
    obtain ⟨l, x, bs, body, rfl, hbounds, rfl, rfl⟩ := Rule.run_tapp_eq_ok.mp hu
    have hout := ih hΓ hf hk hfrun
    have hold := hout.found.old hk
    have hk₁ := hk.trans hout.found.drawn
    constructor
    · exact found_instance hout.found hk ht
    · exact List.forall_mem_append.mpr ⟨hout.tree, ht⟩
    · exact repeats_tapp rfl hout.again ht hk₁ hold hout.found.unnested hbounds rfl
    · exact repeats_tapp rfl hout.explicit ht hk₁ hold hout.found.unnested hbounds rfl
  | ascribe n e t ih =>
    intro k Γ s s' r hΓ he hk h
    obtain ⟨he, ht⟩ := List.forall_mem_append.mp he
    obtain ⟨⟨e', u⟩, s₁, herun, h⟩ := run_bind_eq_ok h
    obtain ⟨v, hv, rfl⟩ := run_bind_pure_eq_ok h
    obtain ⟨hok, rfl⟩ := run_lift_eq_ok hv
    obtain ⟨hsame, rfl⟩ := Rule.ascribe_ok hok
    have hout := ih hΓ he hk herun
    have hu := Ty.settled_of_same_settled ht hsame
    apply Outcome.of_settled hu hout.found.drawn hout.found.knows
    · exact List.forall_mem_append.mpr ⟨hout.tree, ht⟩
    · exact repeats_ascribe rfl hout.again hu hu hok
    · exact repeats_ascribe rfl hout.explicit hu hu hok
  | proj n e label ih =>
    intro k Γ s s' r hΓ he hk h
    obtain ⟨⟨e', u⟩, s₁, herun, h⟩ := run_bind_eq_ok h
    obtain ⟨v, hv, rfl⟩ := run_bind_pure_eq_ok h
    obtain ⟨hok, rfl⟩ := run_lift_eq_ok hv
    obtain ⟨l, fields, rfl, hfield⟩ := Rule.proj_ok hok
    have hmem := Assoc.mem_of_lookup hfield
    have hout := ih hΓ he hk herun
    constructor
    · apply hout.found.part _ _ le_rfl le_rfl hout.found.knows
      · exact fun w hw => Ty.mem_namesFields.mpr ⟨_, hmem, hw⟩
      · exact Ty.unnestedFields_iff.mp hout.found.unnested _ hmem
    · exact hout.tree
    · exact repeats_proj rfl hout.again hok
    · exact repeats_proj rfl hout.explicit hok
  | var n x =>
    intro k Γ s s' r hΓ he hk h
    obtain ⟨t, ht, rfl⟩ := run_bind_pure_eq_ok h
    obtain ⟨hok, rfl⟩ := run_lift_eq_ok ht
    have htk := hΓ x t (Rule.var_ok hok)
    exact .of_settled htk le_rfl (.refl _) he (repeats_var rfl htk hok) (repeats_var rfl htk hok)
  | val n v =>
    intro k Γ s s' r hΓ he hk h
    obtain ⟨rfl, rfl⟩ := run_pure_eq_ok h
    exact .of_settled (settled_lit v k) le_rfl (.refl _) he (repeats_val rfl) (repeats_val rfl)
  | list n es ih =>
    intro k Γ s s' r hΓ he hk h
    cases es with
    | nil =>
      obtain ⟨rfl, rfl⟩ := run_pure_eq_ok h
      have ht : Ty.emptyList.Settled k := by simp [Ty.Settled, Ty.names]
      exact .of_settled ht le_rfl (.refl _) he (repeats_nil rfl) (repeats_nil rfl)
    | cons e es =>
      obtain ⟨ihe, ihes⟩ := List.forall_mem_cons.mp ih
      obtain ⟨he, hes⟩ := List.forall_mem_append.mp he
      obtain ⟨⟨e', t⟩, s₁, herun, h⟩ := run_bind_eq_ok h
      obtain ⟨es', hesrun, rfl⟩ := run_bind_pure_eq_ok h
      have hout := ihe hΓ he hk herun
      have hesold : ∀ d ∈ es, ∀ w ∈ d.typeNames, OldName k w :=
        fun d hd w hw => hes w (mem_typeNamesItems.mpr ⟨d, hd, hw⟩)
      obtain ⟨hd₂, hk₂, hset, htree, hagain, hexpl⟩ := stable_items es ihes hΓ hesold
        (hk.trans hout.found.drawn) (hout.found.old hk) hesrun
      constructor
      · exact hout.found.part (fun w hw => hw) hout.found.unnested le_rfl hd₂
          (hk₂.trans hout.found.knows)
      · apply List.forall_mem_append.mpr ⟨hout.tree, _⟩
        intro w hw
        obtain ⟨d, hd, hwd⟩ := mem_typeNamesItems.mp hw
        exact htree d hd w hwd
      · exact repeats_list rfl (hout.again.knowing hk₂) (hset.imp_left And.left) hagain
      · exact repeats_list rfl (hout.explicit.knowing hk₂) (hset.imp_left And.right) hexpl
  | record n fs ih =>
    intro k Γ s s' r hΓ he hk h
    obtain ⟨⟨fs', ts⟩, s₁, hfsrun, hret⟩ := run_bind_eq_ok h
    obtain ⟨rfl, rfl⟩ := run_pure_eq_ok hret
    have hold : ∀ f ∈ fs, ∀ w ∈ f.2.typeNames, OldName k w :=
      fun f hf w hw => he w (mem_typeNamesFields.mpr ⟨f, hf, hw⟩)
    obtain ⟨hd, hknows, hfound, htree, hagain, hexpl⟩ := stable_fields fs ih hΓ hold hk hfsrun
    constructor
    · refine ⟨hd, hknows, ?_, Ty.unnestedFields_iff.mpr fun f hf => (hfound f hf).unnested⟩
      intro w hw
      obtain ⟨f, hf, hwf⟩ := Ty.mem_namesFields.mp hw
      exact (hfound f hf).names w hwf
    · intro w hw
      obtain ⟨f, hf, hwf⟩ := mem_typeNamesFields.mp hw
      exact htree f hf w hwf
    · exact repeats_record rfl hagain
    · exact repeats_record rfl hexpl

end Stable

end Expr

end TraitCalculus
