import TraitCalculus.Proofs.DictionaryStock

/-! Scopes in tables that change. Here typing and dictionary passing keep their scope in a table:
an entry is made or taken out in front of a binder's body, and undone behind it. They find what
`infer` and `dispatch` find, which take the scope as an argument, and behind every expression the
tables are as they were. -/
namespace TraitCalculus

section Tables

variable {τ σ ε α β : Type}

/-- Runs beside a table. -/
def beside (m : StateT σ (Except ε) α) : StateT (τ × σ) (Except ε) α :=
  fun s => (m.run s.2).map fun r => (r.1, s.1, r.2)

/-- Changes the table in front of `p`, and again behind it. What it was before is at hand there. -/
def within (enter : τ → τ) (leave : τ → τ → τ) (p : StateT (τ × σ) (Except ε) α) :
    StateT (τ × σ) (Except ε) α :=
  fun s => (p.run (enter s.1, s.2)).map fun r => (r.1, leave s.1 r.2.1, r.2.2)

/-- Looks into the table first. -/
def looking (q : τ → StateT (τ × σ) (Except ε) α) : StateT (τ × σ) (Except ε) α :=
  fun s => (q s.1).run s

/-- On tables with the property `p` does what `m` does, leaves a table with the property, and the
states before and behind it are related. -/
def Tracks (P : τ → Prop) (R : σ → σ → Prop) (p : StateT (τ × σ) (Except ε) α)
    (m : StateT σ (Except ε) α) : Prop :=
  ∀ t s, P t → ∃ t', P t' ∧ p.run (t, s) = (m.run s).map (fun r => (r.1, t', r.2)) ∧
    ∀ r, m.run s = .ok r → R s r.2

namespace Tracks

variable {P Q : τ → Prop} {R : σ → σ → Prop} {p : StateT (τ × σ) (Except ε) α}
  {m : StateT σ (Except ε) α}

theorem of_beside (h : ∀ s r, m.run s = .ok r → R s r.2) : Tracks P R (beside m) m :=
  fun t s ht => ⟨t, ht, rfl, h s⟩

theorem looking {q : τ → StateT (τ × σ) (Except ε) α} (h : ∀ t, P t → Tracks P R (q t) m) :
    Tracks P R (looking q) m :=
  fun t s ht => h t ht t s ht

theorem within {enter : τ → τ} {leave : τ → τ → τ} (hp : Tracks Q R p m)
    (henter : ∀ t, P t → Q (enter t)) (hleave : ∀ t u, P t → Q u → P (leave t u)) :
    Tracks P R (within enter leave p) m := by
  intro t s ht
  obtain ⟨u, hu, hrun, hR⟩ := hp (enter t) s (henter t ht)
  refine ⟨leave t u, hleave t u ht hu, ?_, hR⟩
  show (p.run (enter t, s)).map _ = _
  rw [hrun]
  cases m.run s <;> rfl

theorem run_map {t : τ} (h : Tracks P R p m) (ht : P t) (s : σ) :
    (p.run (t, s)).map (fun r => (r.1, r.2.2)) = m.run s ∧
      ∀ a t' s', p.run (t, s) = .ok (a, t', s') → P t' ∧ R s s' := by
  obtain ⟨t₁, ht₁, hrun, hR⟩ := h t s ht
  rw [hrun]
  cases hm : m.run s with
  | error e => exact ⟨rfl, nofun⟩
  | ok r =>
    refine ⟨rfl, fun a t' s' heq => ?_⟩
    obtain ⟨-, rfl, rfl⟩ := Except.ok.inj heq
    exact ⟨ht₁, hR r hm⟩

variable [IsPreorder σ R]

theorem pure (a : α) : Tracks P R (Pure.pure a : StateT (τ × σ) (Except ε) α) (Pure.pure a) :=
  fun t s ht => ⟨t, ht, rfl, fun _ hr => Except.ok.inj hr ▸ refl_of R s⟩

theorem lift (e : Except ε α) :
    Tracks P R (liftM e : StateT (τ × σ) (Except ε) α) (liftM e) := by
  intro t s ht
  cases e with
  | error e => exact ⟨t, ht, rfl, nofun⟩
  | ok a => exact pure a t s ht

theorem bind {f : α → StateT (τ × σ) (Except ε) β} {g : α → StateT σ (Except ε) β}
    (hp : Tracks P R p m) (hf : ∀ a, Tracks P R (f a) (g a)) :
    Tracks P R (p >>= f) (m >>= g) := by
  intro t s ht
  obtain ⟨t₁, ht₁, hrun, hR⟩ := hp t s ht
  rw [StateT.run_bind, StateT.run_bind, hrun]
  cases hm : m.run s with
  | error e => exact ⟨t, ht, rfl, nofun⟩
  | ok r =>
    obtain ⟨t₂, ht₂, hrun₂, hR₂⟩ := hf r.1 t₁ r.2 ht₁
    exact ⟨t₂, ht₂, hrun₂, fun r' hr' => trans_of R (hR r hm) (hR₂ r' hr')⟩

end Tracks

end Tables

/-- Every trait's list is the same, but a trait that had none may have got an empty one. -/
def Restored (st st' : TypingState) : Prop := ∀ trait,
  st'.instances.lookup trait = st.instances.lookup trait ∨
    st.instances.lookup trait = none ∧ st'.instances.lookup trait = some []

instance : IsPreorder TypingState Restored where
  refl _ _ := Or.inl rfl
  trans a b c hab hbc trait := by grind [Restored]

namespace Expr

/-- Typing with the scope in a table. -/
abbrev Checking := StateT (Scope Entry × TypingState) (Except TypeError)

/-- How an application is typed, once function and argument are. -/
abbrev CheckRule := Note → Expr × Ty → Expr × Ty → Checking (Expr × Ty)

/-- Opens a frame for one name, and closes it behind `p`. -/
def inFrame {α : Type} (x : String) (a : Entry) (p : Checking α) : Checking α :=
  within (·.extend x a) (fun _ Γ => Γ.pop) p

mutual

/-- Types an expression in the scope of the table, applications by the rule `rule`. -/
def checkWith (rule : CheckRule) : Expr → Checking (Expr × Ty)
  | lam n x p body =>
    match p with
    | .typed t => do
      let (body, s) ← inFrame x (.term t) (body.checkWith rule)
      return annotate (lam n x p body) (.arrow none t s)
    | _ => beside (Typing.fail n.line (.untyped x))
  | tlam n x bounds body => do
    let (body, s) ← inFrame x .type do
      beside (Typing.assume (.name none x) bounds)
      let r ← body.checkWith rule
      beside (Typing.release bounds)
      return r
    return annotate (tlam n x bounds body) (.all none x bounds s)
  | cond n c y z => do
    let (c, s) ← c.checkWith rule
    let (y, t) ← y.checkWith rule
    let (z, u) ← z.checkWith rule
    return annotate (cond n c y z) (← Rule.cond n.line s t u)
  | bin n op l r => do
    let (l, s) ← l.checkWith rule
    let (r, t) ← r.checkWith rule
    return annotate (bin n op l r) (← Rule.bin n.line op s t)
  | un n op e => do
    let (e, t) ← e.checkWith rule
    return annotate (un n op e) (← Rule.un n.line op t)
  | app n f a => do
    let f ← f.checkWith rule
    let a ← a.checkWith rule
    rule n f a
  | tapp n f t => do
    let (f, s) ← f.checkWith rule
    return annotate (tapp n f t) (← beside (Rule.tapp n.line f s t))
  | ascribe n e t => do
    let (e, s) ← e.checkWith rule
    return annotate (ascribe n e t) (← Rule.ascribe n.line t s)
  | proj n e label => do
    let (e, t) ← e.checkWith rule
    return annotate (proj n e label) (← Rule.proj n.line t label)
  | var n x => looking fun Γ => do return annotate (var n x) (← Rule.var Γ n.line x)
  | val n v => return annotate (val n v) (Rule.lit v)
  | list n es =>
    match es with
    | [] => return annotate (list n []) .emptyList
    | e :: es => do
      let (e, t) ← e.checkWith rule
      let es ← checkItems rule t es
      return annotate (list n (e :: es)) (.list none t)
  | record n fs => do
    let (fs, ts) ← checkFields rule fs
    return annotate (record n fs) (.record none ts)

def checkItems (rule : CheckRule) (t : Ty) : List Expr → Checking (List Expr)
  | [] => return []
  | e :: es => do
    let (e', s) ← e.checkWith rule
    if t.same s then return e' :: (← checkItems rule t es)
    else beside (Typing.fail e.line (.mismatch t s))

def checkFields (rule : CheckRule) :
    List (String × Expr) → Checking (List (String × Expr) × List (String × Ty))
  | [] => return ([], [])
  | (label, e) :: fs => do
    let (e, t) ← e.checkWith rule
    let (fs, ts) ← checkFields rule fs
    return ((label, e) :: fs, (label, t) :: ts)

end

section

variable {α : Type} {Γ : Scope Entry} {p : Checking α} {m : Typing α}

/-- The frame is gone behind `p`, and the frames around it are those that were there. -/
theorem tracks_inFrame {x : String} {a : Entry}
    (h : Tracks (· = Γ.extend x a) Restored p m) : Tracks (· = Γ) Restored (inFrame x a p) m := by
  refine h.within ?_ ?_
  · rintro _ rfl
    rfl
  · rintro _ _ rfl rfl
    rfl

/-- The list of a bound is as it was once as many entries are taken from it as were put there. -/
theorem restored_release {st st' : TypingState} {t : Ty} {bounds : List String}
    (h : Restored { st with instances := Typing.update (t :: ·) bounds st.instances } st') :
    Restored st { st' with instances := Typing.update List.tail bounds st'.instances } := by
  intro trait
  have htrait := h trait
  simp only [Typing.lookup_update] at htrait ⊢
  split_ifs at htrait ⊢ with hmem
  · rcases htrait with htrait | ⟨hnone, -⟩
    · rw [htrait, Option.getD_some, Typing.iterate_tail_cons]
      cases st.instances.lookup trait with
      | none => exact Or.inr ⟨rfl, rfl⟩
      | some ts => exact Or.inl rfl
    · cases hnone
  · exact htrait

theorem tracks_bounded (h : Tracks (· = Γ) Restored p m) (t : Ty) (bounds : List String) :
    Tracks (· = Γ) Restored
      (do beside (Typing.assume t bounds); let a ← p; beside (Typing.release bounds); return a)
      (do Typing.assume t bounds; let a ← m; Typing.release bounds; return a) := by
  rintro _ st rfl
  -- both run their inner part from the state in which the bounds have one more instance
  generalize hst : { st with instances := Typing.update (t :: ·) bounds st.instances } = st₁
  have hassume := hst ▸ Typing.run_assume t bounds st
  obtain ⟨Γ, rfl, hrun, hR⟩ := h _ st₁ rfl
  have hopen : (beside (Typing.assume t bounds)).run (Γ, st) = .ok ((), Γ, st₁) := hst ▸ rfl
  refine ⟨Γ, rfl, ?_⟩
  rw [run_bind_of_ok hopen, run_bind_of_ok hassume, StateT.run_bind, StateT.run_bind, hrun]
  cases hm : m.run st₁ with
  | error e => exact ⟨rfl, nofun⟩
  | ok r => exact ⟨rfl, fun _ hr => Except.ok.inj hr ▸ restored_release (hst ▸ hR r hm)⟩

end

theorem tracks_checkItems {rule' : CheckRule} {rule : AppRule} {Γ : Scope Entry} {t : Ty}
    {es : List Expr}
    (h : ∀ e ∈ es, Tracks (· = Γ) Restored (e.checkWith rule') (e.typeWith rule Γ)) :
    Tracks (· = Γ) Restored (checkItems rule' t es) (typeItems rule Γ t es) := by
  induction es with
  | nil => exact .pure _
  | cons e es ih =>
    obtain ⟨he, hes⟩ := List.forall_mem_cons.mp h
    refine he.bind fun r => ?_
    dsimp only
    split_ifs
    · exact (ih hes).bind fun _ => .pure _
    · exact .of_beside nofun

theorem tracks_checkWith {rule' : CheckRule} {rule : AppRule}
    (hrule : ∀ Γ n f a, Tracks (· = Γ) Restored (rule' n f a) (rule Γ n f a))
    (e : Expr) : ∀ Γ, Tracks (· = Γ) Restored (e.checkWith rule') (e.typeWith rule Γ) := by
  induction e using Expr.induction with
  | lam n x p body ih =>
    intro Γ
    cases p with
    | typed t => exact (tracks_inFrame (ih _)).bind fun _ => .pure _
    | dictionary | erased => exact .of_beside nofun
  | tlam n x bounds body ih =>
    intro Γ
    have hbody := tracks_inFrame (tracks_bounded (ih (Γ.extend x .type)) (.name none x) bounds)
    simpa [checkWith, typeWith] using hbody.bind fun r =>
      .pure (annotate (tlam n x bounds r.1) (.all none x bounds r.2))
  | cond n c y z ihc ihy ihz =>
    exact fun Γ => (ihc Γ).bind fun _ => (ihy Γ).bind fun _ => (ihz Γ).bind fun _ =>
      (Tracks.lift _).bind fun _ => .pure _
  | bin n op l r ihl ihr =>
    exact fun Γ => (ihl Γ).bind fun _ => (ihr Γ).bind fun _ => (Tracks.lift _).bind fun _ => .pure _
  | un n op e ih | ascribe n e t ih | proj n e label ih =>
    exact fun Γ => (ih Γ).bind fun _ => (Tracks.lift _).bind fun _ => .pure _
  | app n f a ihf iha => exact fun Γ => (ihf Γ).bind fun _ => (iha Γ).bind fun _ => hrule Γ n _ _
  | tapp n f t ih =>
    refine fun Γ => (ih Γ).bind fun _ => (Tracks.of_beside ?_).bind fun _ => .pure _
    intro st r hr
    obtain ⟨_, _, _, _, -, -, -, hst⟩ := Rule.run_tapp_eq_ok.mp hr
    exact hst ▸ fun _ => Or.inl rfl
  | var n x =>
    intro Γ
    refine .looking ?_
    rintro _ rfl
    exact (Tracks.lift _).bind fun _ => .pure _
  | val n v => exact fun Γ => .pure _
  | list n es ih =>
    intro Γ
    cases es with
    | nil => exact .pure _
    | cons e es =>
      obtain ⟨he, hes⟩ := List.forall_mem_cons.mp fun d hd => ih d hd Γ
      exact he.bind fun _ => (tracks_checkItems hes).bind fun _ => .pure _
  | record n fs ih =>
    intro Γ
    refine .bind ?_ fun _ => .pure _
    induction fs with
    | nil => exact .pure _
    | cons f fs ihs =>
      obtain ⟨ihf, ihfs⟩ := List.forall_mem_cons.mp ih
      exact (ihf Γ).bind fun _ => (ihs ihfs).bind fun _ => .pure _

/-- An application without inference. -/
def checkExplicit : CheckRule := fun n f a => do
  return annotate (app n f.1 a.1) (← Rule.app n.line f.2 a.2)

/-- An application with inference. Function and argument are visited again, with the type argument
in place. -/
def checkApp : CheckRule := fun n f a =>
  match f.2 with
  | .all _ x _ (.arrow _ dom _) =>
    match dom.unify x a.2 with
    | some t => do
      let f ← (tapp ⟨n.line, none⟩ f.1 t).checkWith checkExplicit
      let a ← a.1.checkWith checkExplicit
      checkExplicit n f a
    | none => beside (Typing.fail n.line (.noInstantiation f.2 a.2))
  | _ => checkExplicit n f a

/-- Types an expression in the scope of the table, and finds missing type arguments. -/
def check (e : Expr) : Checking (Expr × Ty) := e.checkWith checkApp

theorem tracks_checkApp (Γ : Scope Entry) (n : Note) (f a : Expr × Ty) :
    Tracks (· = Γ) Restored (checkApp n f a) (inferApp Γ n f a) := by
  have happ (Γ : Scope Entry) (n : Note) (f a : Expr × Ty) :
      Tracks (· = Γ) Restored (checkExplicit n f a) (explicitApp Γ n f a) :=
    (Tracks.lift _).bind fun _ => .pure _
  obtain ⟨f, q⟩ := f
  cases q with
  | all l y bs body =>
    cases body with
    | arrow l' dom cod =>
      dsimp only [checkApp, inferApp]
      cases dom.unify y a.2 with
      | some t =>
        exact (tracks_checkWith happ _ Γ).bind fun _ => (tracks_checkWith happ _ Γ).bind fun _ =>
          happ Γ n _ _
      | none => exact .of_beside nofun
    | _ => exact happ Γ n _ a
  | _ => exact happ Γ n _ a

end Expr

/-- The name of a trait is an identifier, and so never empty. -/
abbrev TraitName := { trait : String // trait ≠ "" }

/-- The traits of field names, as `dispatch` takes them. -/
def traitsIn (table : List (String × TraitName)) : List (String × String) :=
  table.map fun o => (o.1, o.2.val)

namespace Expr

/-- Dictionary passing with the traits of the field names in a table. -/
abbrev Passing := StateT (List (String × TraitName) × Dictionaries) (Except DictionaryError)

/-- Takes out the entry of a name, and puts it back behind `p` if there was one. -/
def without {α : Type} (x : String) (p : Passing α) : Passing α :=
  within (Assoc.erase x)
    (fun before after => (before.lookup x).elim after (Assoc.insert x · after)) p

mutual

/-- Makes dictionaries explicit. The table gives the traits of the field names in scope. -/
def handOut : Expr → Passing Expr
  | lam n x p body => return lam n x p (← without x body.handOut)
  | tlam n x bounds body => without x do
    let dicts ← beside (Dictionaries.bind x bounds.reverse)
    let body ← dicts.foldl (fun p d => do return lam .blank d .dictionary (← without d p))
      body.handOut
    return tlam n x bounds body
  | cond n c y z => do
    let c ← c.handOut
    let y ← y.handOut
    return cond n c y (← z.handOut)
  | bin n op l r => do
    let l ← l.handOut
    return bin n op l (← r.handOut)
  | un n op e => return un n op (← e.handOut)
  | app n f a => do
    let f ← f.handOut
    return app n f (← a.handOut)
  | tapp n f t => looking fun table =>
    match f.fieldOf? (traitsIn table) with
    | some (x, trait) => return proj ⟨n.line, none⟩ (← beside (Dictionaries.find trait t)) x
    | none =>
      if f.wanted.isEmpty then return tapp n (← f.handOut) t
      else beside (Dictionaries.apply n.line t (tapp n f t) f.wanted)
  | ascribe n e t => return ascribe n (← e.handOut) t
  | proj n e label => return proj n (← e.handOut) label
  | var n x => looking fun table =>
    if ((traitsIn table).lookup x).isSome then throw (.unappliedField n.line x)
    else return var n x
  | val n v => return val n v
  | list n es => return list n (← handOutItems es)
  | record n fs => return record n (← handOutFields fs)

def handOutItems : List Expr → Passing (List Expr)
  | [] => return []
  | e :: es => do
    let e ← e.handOut
    return e :: (← handOutItems es)

def handOutFields : List (String × Expr) → Passing (List (String × Expr))
  | [] => return []
  | (label, e) :: fs => do
    let e ← e.handOut
    return (label, e) :: (← handOutFields fs)

end

/-- The table has the entries of `owners`, in whatever order. -/
def Shows (owners : List (String × String)) (table : List (String × TraitName)) : Prop :=
  ∀ z, (traitsIn table).lookup z = owners.lookup z

/-- What happens to the dictionaries does not matter to the table. -/
def Anyhow (_ _ : Dictionaries) : Prop := True

instance : IsPreorder Dictionaries Anyhow where
  refl _ := trivial
  trans _ _ _ _ _ := trivial

section

variable {owners : List (String × String)}

theorem tracks_without {α : Type} {x : String} {p : Passing α} {m : Dispatch α}
    (h : Tracks (Shows (Assoc.erase x owners)) Anyhow p m) :
    Tracks (Shows owners) Anyhow (without x p) m := by
  refine h.within ?_ ?_
  · intro table htable z
    have hz := htable z
    rw [traitsIn, Assoc.lookup_map] at hz ⊢
    by_cases hx : z = x
    · rw [hx, Assoc.lookup_erase_self, Assoc.lookup_erase_self, Option.map_none]
    · rw [Assoc.lookup_erase_of_ne _ hx, Assoc.lookup_erase_of_ne _ hx, hz]
  · intro table after htable hafter z
    have hz := htable z
    have hz' := hafter z
    rw [traitsIn, Assoc.lookup_map] at hz hz' ⊢
    by_cases hx : z = x
    · subst hx
      rw [Assoc.lookup_erase_self] at hz'
      cases hlook : table.lookup z with
      | none =>
        rw [hlook] at hz
        exact hz'.trans hz
      | some trait => rw [Option.elim_some, Assoc.lookup_insert_self, ← hlook, hz]
    · rw [Assoc.lookup_erase_of_ne _ hx] at hz'
      cases table.lookup x with
      | none => exact hz'
      | some trait => rw [Option.elim_some, Assoc.lookup_insert_of_ne _ _ hx, hz']

/-- Each dictionary parameter hides its name in turn, the last one first. -/
theorem tracks_dictionaryParams (owners : List (String × String)) (dicts : List String)
    {p : Passing Expr} {m : Dispatch Expr}
    (h : Tracks (Shows (dicts.foldl (fun os d => Assoc.erase d os) owners)) Anyhow p m) :
    Tracks (Shows owners) Anyhow
      (dicts.foldl (fun p d => do return lam .blank d .dictionary (← without d p)) p)
      (do return dicts.foldl (fun b d => lam .blank d .dictionary b) (← m)) := by
  induction dicts generalizing p m with
  | nil => simpa using h
  | cons d dicts ih =>
    have herase : dicts.foldl (fun os d => Assoc.erase d os) (Assoc.erase d owners) =
        Assoc.erase d (dicts.foldl (fun os d => Assoc.erase d os) owners) :=
      List.foldl_hom _ fun os d' => by simp [Assoc.erase, List.filter_filter, Bool.and_comm]
    rw [List.foldl_cons, herase] at h
    simpa using ih ((tracks_without h).bind fun b => .pure (lam .blank d .dictionary b))

theorem Shows.fieldOf? {table : List (String × TraitName)} (h : Shows owners table) (e : Expr) :
    e.fieldOf? (traitsIn table) = e.fieldOf? owners := by
  cases e with
  | var n x => rw [Expr.fieldOf?, Expr.fieldOf?, h]
  | _ => rfl

end

theorem tracks_handOut (e : Expr) :
    ∀ owners, Tracks (Shows owners) Anyhow e.handOut (e.dispatch owners) := by
  have hbeside {α : Type} {owners : List (String × String)} (m : Dispatch α) :
      Tracks (Shows owners) Anyhow (beside m) m := .of_beside fun _ _ _ => trivial
  induction e using Expr.induction with
  | lam n x p body ih => exact fun owners => (tracks_without (ih _)).bind fun _ => .pure _
  | tlam n x bounds body ih =>
    intro owners
    refine tracks_without ((hbeside _).bind fun dicts => ?_)
    have hbody := tracks_dictionaryParams (Assoc.erase x owners) dicts (ih _)
    simpa using hbody.bind fun b => .pure (tlam n x bounds b)
  | cond n c y z ihc ihy ihz =>
    exact fun owners => (ihc owners).bind fun _ => (ihy owners).bind fun _ =>
      (ihz owners).bind fun _ => .pure _
  | bin n op l r ihl ihr | app n l r ihl ihr =>
    exact fun owners => (ihl owners).bind fun _ => (ihr owners).bind fun _ => .pure _
  | un n op e ih | ascribe n e t ih | proj n e label ih =>
    exact fun owners => (ih owners).bind fun _ => .pure _
  | tapp n f t ih =>
    intro owners
    refine .looking fun table htable => ?_
    dsimp only [dispatch]
    rw [htable.fieldOf? f]
    cases f.fieldOf? owners with
    | some field => exact (hbeside _).bind fun _ => .pure _
    | none =>
      dsimp only
      split_ifs
      · exact (ih owners).bind fun _ => .pure _
      · exact hbeside _
  | var n x =>
    intro owners
    refine .looking fun table htable => ?_
    dsimp only [dispatch]
    rw [htable x]
    split_ifs
    · exact fun table d htable => ⟨table, htable, rfl, nofun⟩
    · exact .pure _
  | val n v => exact fun _ => .pure _
  | list n es ih | record n es ih =>
    intro owners
    refine .bind ?_ fun _ => .pure _
    induction es with
    | nil => exact .pure _
    | cons e es ihs =>
      obtain ⟨ihe, ihes⟩ := List.forall_mem_cons.mp ih
      exact (ihe owners).bind fun _ => (ihs ihes).bind fun _ => .pure _

/-- Typing and dictionary passing with tables find what `infer` and `dispatch` find, and put back
the tables they are given, whatever these hold. Behind an expression the frames are those that were
open in front of it, with the same bindings, and the traits have the same instances. A field name
has the same trait, or none if it had none. -/
theorem tables_restored (e : Expr) :
    (∀ Γ st, (e.check.run (Γ, st)).map (fun r => (r.1, r.2.2)) = (e.infer Γ).run st ∧
      ∀ r Γ' st', e.check.run (Γ, st) = .ok (r, Γ', st') → Γ' = Γ ∧ Restored st st') ∧
    ∀ table d, (e.handOut.run (table, d)).map (fun r => (r.1, r.2.2)) =
        (e.dispatch (traitsIn table)).run d ∧
      ∀ r table' d', e.handOut.run (table, d) = .ok (r, table', d') →
        ∀ x, table'.lookup x = table.lookup x := by
  constructor
  · exact fun Γ st => (tracks_checkWith tracks_checkApp e Γ).run_map rfl st
  · intro table d
    obtain ⟨hfound, hkept⟩ := (tracks_handOut e (traitsIn table)).run_map (fun _ => rfl) d
    refine ⟨hfound, fun r table' d' hrun x => ?_⟩
    have hx := (hkept r table' d' hrun).1 x
    rw [traitsIn, traitsIn, Assoc.lookup_map, Assoc.lookup_map] at hx
    exact Option.map_injective Subtype.val_injective hx

/-- A type lambda that is bounded twice by one trait. Its parameter has the name of a field, and is
the argument of an identity whose type argument is to be found. -/
def shadowing : Expr :=
  tlam .blank "T" ["Show", "Show"] (lam .blank "show" (.typed (.name none "T"))
    (app .blank (tlam .blank "U" [] (lam .blank "y" (.typed (.name none "U")) (var .blank "y")))
      (var .blank "show")))

theorem tables_restored_shadowing :
    (∃ r Γ st, shadowing.check.run (Scope.builtins, {}) = .ok (r, Γ, st) ∧
      Γ = Scope.builtins ∧ Restored {} st) ∧
    ∃ r table d, shadowing.handOut.run ([("show", ⟨"Show", by decide⟩)], {}) = .ok (r, table, d) ∧
      table.lookup "show" = some ⟨"Show", by decide⟩ := by
  obtain ⟨hcheck, hpass⟩ := tables_restored shadowing
  obtain ⟨r, Γ, st, hr⟩ : ∃ r Γ st, shadowing.check.run (Scope.builtins, {}) = .ok (r, Γ, st) :=
    ⟨_, _, _, rfl⟩
  obtain ⟨r', table, d, hr'⟩ : ∃ r table d,
      shadowing.handOut.run ([("show", ⟨"Show", by decide⟩)], {}) = .ok (r, table, d) :=
    ⟨_, _, _, rfl⟩
  exact ⟨⟨r, Γ, st, hr, (hcheck _ _).2 _ _ _ hr⟩, r', table, d, hr', (hpass _ _).2 _ _ _ hr' "show"⟩

end Expr

end TraitCalculus
