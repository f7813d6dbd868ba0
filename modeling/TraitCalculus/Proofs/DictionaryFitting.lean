import Mathlib
import TraitCalculus.Proofs.Decimals
import TraitCalculus.Proofs.DictionaryDemands
import TraitCalculus.Proofs.FinishedEvaluations

/-! Expressions that pass dictionaries where they are demanded. What an expression demands follows
from the demands of its parts, without its types; a parameter for a dictionary of a trait demands
such a dictionary. Substitution of what fits for a variable leaves an expression that fits. -/
namespace TraitCalculus

namespace Dictionaries

/-- What stands before a number, up to a mark that is no digit. -/
theorem before_number_inj {xs ys : List Char} {c d : Char} {j k : Nat} (hc : c.isDigit = false)
    (hd : d.isDigit = false) (h : xs ++ c :: (toString j).toList = ys ++ d :: (toString k).toList) :
    xs = ys ∧ c = d := by
  have before (zs : List Char) (a : Char) (i : Nat) (ha : a.isDigit = false) :
      ((zs ++ a :: (toString i).toList).reverse.dropWhile (·.isDigit)).reverse = zs ++ [a] := by
    rw [List.reverse_append, List.reverse_cons, List.append_assoc, List.dropWhile_append_of_pos
      fun b hb => Text.isDigit_of_mem_toString (List.mem_reverse.mp hb)]
    simp [ha]
  have hends : xs ++ [c] = ys ++ [d] := by
    rw [← before xs c j hc, ← before ys d k hd, h]
  exact ⟨(List.append_inj' hends rfl).1, by simpa using (List.append_inj' hends rfl).2⟩

theorem toList_paramName (trait : String) (k : Nat) :
    (paramName trait k).toList =
      "__dictp_".toList ++ trait.toList ++ '_' :: (toString k).toList := by
  simp [paramName]

/-- A dictionary parameter's name tells its trait. -/
theorem paramName_trait_inj {F F' : String} {j k : Nat} (h : paramName F j = paramName F' k) :
    F = F' := by
  have hl := congrArg String.toList h
  rw [toList_paramName, toList_paramName] at hl
  have hfront := (before_number_inj (by decide) (by decide) hl).1
  exact String.toList_injective (List.append_cancel_left hfront)

/-- No dictionary parameter has a name that is drawn. -/
theorem paramName_ne_freshName (F base : String) (j k : Nat) :
    paramName F j ≠ freshName base k := by
  intro h
  have hl := congrArg String.toList h
  rw [toList_paramName, toList_freshName] at hl
  have hmark := (before_number_inj (by decide) (by decide) hl).2
  exact absurd hmark (by decide)

/-- Names that are kept for dictionary parameters. -/
def reserved (x : String) : Bool := "__dictp_".toList.isPrefixOf x.toList

theorem reserved_paramName (F : String) (k : Nat) : reserved (paramName F k) = true := by
  rw [reserved, toList_paramName, List.isPrefixOf_iff_prefix, List.append_assoc]
  exact List.prefix_append _ _

theorem ne_paramName {x : String} (h : reserved x = false) (F : String) (k : Nat) :
    x ≠ paramName F k := by
  rintro rfl
  rw [reserved_paramName] at h
  cases h

theorem oldName_paramName (F : String) (j k : Nat) : OldName k (paramName F j) :=
  fun base i h => absurd h (paramName_ne_freshName F base j i)

/-- The name of a parameter for dictionaries of the trait, also where substitution has drawn a new
one for it. -/
inductive Stands (trait : String) : String → Prop
  | param (k : Nat) : Stands trait (paramName trait k)
  | drawn {x : String} (h : Stands trait x) (k : Nat) : Stands trait (freshName x k)

namespace Stands

variable {F G x : String} {k : Nat}

theorem trait_eq (h : Stands F (paramName G k)) : F = G := by
  generalize hx : paramName G k = x at h
  cases h with
  | param j => exact (paramName_trait_inj hx).symm
  | drawn _ j => exact absurd hx (paramName_ne_freshName G _ k j)

theorem of_freshName (h : Stands F (freshName x k)) : Stands F x := by
  generalize hy : freshName x k = y at h
  cases h with
  | param j => exact absurd hy.symm (paramName_ne_freshName F x j k)
  | @drawn z hz j =>
    have hl := congrArg String.toList hy
    rw [toList_freshName, toList_freshName] at hl
    have hbase := (before_number_inj (by decide) (by decide) hl).1
    rwa [String.toList_injective hbase]

theorem reserved (h : Stands F x) : reserved x = true := by
  induction h with
  | param k => exact reserved_paramName F k
  | drawn _ k ih =>
    unfold Dictionaries.reserved at ih ⊢
    rw [List.isPrefixOf_iff_prefix] at ih ⊢
    rw [toList_freshName]
    exact ih.trans (List.prefix_append _ _)

end Stands

theorem not_stands {x : String} (h : reserved x = false) (F : String) : ¬Stands F x := by
  intro hs
  rw [hs.reserved] at h
  cases h

end Dictionaries

/-- What a program says of its globals and of its traits. -/
structure World where
  /-- The demands of the globals. -/
  globals : List (String × Demand)
  /-- The demands of the fields of traits, by trait and label. -/
  fields : List ((String × String) × Demand)
  /-- Traits, with the globals that hold their dictionaries. -/
  instances : List (String × String)

namespace World

/-- A name that no global and no builtin has. -/
def Local (W : World) (x : String) : Prop := ¬Closure.Taken (W.globals.map Prod.fst) x

/-- A record with the demand `R` serves as a dictionary of the trait. -/
def Serves (W : World) (trait : String) (R : Demand) : Prop :=
  ∀ label S, W.fields.lookup (trait, label) = some S → R.get label = S

/-- The names are kept apart, and the globals of instances serve as dictionaries. -/
structure Sound (W : World) : Prop where
  names : ∀ x ∈ W.globals.map Prod.fst, SourceName x ∧ Builtin.ofName? x = none
  params : ∀ x ∈ W.globals.map Prod.fst, Dictionaries.reserved x = false
  generated : "__x" ∉ W.globals.map Prod.fst ∧ "__xs" ∉ W.globals.map Prod.fst
  values : ∀ x S, W.globals.lookup x = some S → S.isDict = false
  instances : ∀ F g, (F, g) ∈ W.instances → ∃ R, W.globals.lookup g = some R ∧ W.Serves F R

variable {W : World} {x : String}

theorem taken_of_lookup {S : Demand} (h : W.globals.lookup x = some S) : ¬W.Local x := by
  have hmem : x ∈ W.globals.map Prod.fst := List.mem_map.mpr ⟨_, Assoc.mem_of_lookup h, rfl⟩
  exact not_not_intro (Or.inl hmem)

theorem taken_of_builtin {b : Builtin} (h : Builtin.ofName? x = some b) : ¬W.Local x :=
  not_not_intro (Or.inr (by rw [h]; rfl))

namespace Sound

variable (hW : W.Sound)
include hW

theorem not_builtin {S : Demand} (h : W.globals.lookup x = some S) : Builtin.ofName? x = none :=
  (hW.names x (List.mem_map.mpr ⟨_, Assoc.mem_of_lookup h, rfl⟩)).2

theorem taken_of_inst {F g : String} (h : (F, g) ∈ W.instances) : ¬W.Local g := by
  obtain ⟨R, hR, -⟩ := hW.instances F g h
  exact taken_of_lookup hR

/-- The names of globals and builtins are those of a text. -/
theorem sourceName (h : ¬W.Local x) : SourceName x := by
  rcases not_not.mp h with hx | hx
  · exact (hW.names x hx).1
  · obtain ⟨b, hb⟩ := Option.isSome_iff_exists.mp hx
    rw [← Builtin.name_of_ofName? hb]
    exact b.sourceName_name

theorem local_freshName (base : String) (k : Nat) : W.Local (freshName base k) := by
  by_contra h
  have hsource := hW.sourceName h
  unfold SourceName at hsource
  rw [toList_freshName] at hsource
  simp at hsource

end Sound

end World

namespace Expr

/-- The expression passes dictionaries where they are demanded, and has a demand itself. `Δ` gives
the demands of variables, `D` the shapes of the dictionaries of traits, and names of lambdas are
old at `k`. -/
inductive Fits (W : World) (D : String → Shape → Prop) (k : Nat) :
    List (String × Demand) → Expr → Demand → Prop
  | lam {Δ : List (String × Demand)} {n : Note} {x : String} {p : Param} {body : Expr}
      {S T : Demand} (hx : W.Local x) (hold : OldName k x)
      (hparam : ∀ F, Dictionaries.Stands F x → S = .dict F)
      (hbody : Fits W D k ((x, S) :: Δ) body T) : Fits W D k Δ (.lam n x p body) (.arrow S T)
  | tlam {Δ : List (String × Demand)} {n : Note} {x : String} {bounds : List String} {body : Expr}
      {T : Demand} (h : Fits W D k Δ body T) : Fits W D k Δ (.tlam n x bounds body) T
  | cond {Δ : List (String × Demand)} {n : Note} {c y z : Expr} {T : Demand}
      (hT : T.isDict = false) (hc : Fits W D k Δ c .plain) (hy : Fits W D k Δ y T)
      (hz : Fits W D k Δ z T) : Fits W D k Δ (.cond n c y z) T
  | bin {Δ : List (String × Demand)} {n : Note} {op : BinOp} {l r : Expr} {T : Demand}
      (hT : T.isDict = false) (hop : op = .add ∨ T = .plain) (hl : Fits W D k Δ l T)
      (hr : Fits W D k Δ r T) : Fits W D k Δ (.bin n op l r) T
  | equality {Δ : List (String × Demand)} {n : Note} {op : BinOp} {l r : Expr} {S T : Demand}
      (hop : op = .eq ∨ op = .neq) (hl : Fits W D k Δ l S) (hr : Fits W D k Δ r T) :
      Fits W D k Δ (.bin n op l r) .plain
  | un {Δ : List (String × Demand)} {n : Note} {op : UnOp} {e : Expr}
      (h : Fits W D k Δ e .plain) : Fits W D k Δ (.un n op e) .plain
  | app {Δ : List (String × Demand)} {n : Note} {f a : Expr} {S T : Demand}
      (hT : T.isDict = false) (hf : Fits W D k Δ f (.arrow S T)) (ha : Fits W D k Δ a S) :
      Fits W D k Δ (.app n f a) T
  | tapp {Δ : List (String × Demand)} {n : Note} {f : Expr} {t : Ty} {T : Demand}
      (h : Fits W D k Δ f T) : Fits W D k Δ (.tapp n f t) T
  | ascribe {Δ : List (String × Demand)} {n : Note} {e : Expr} {t : Ty} {T : Demand}
      (h : Fits W D k Δ e T) : Fits W D k Δ (.ascribe n e t) T
  | proj {Δ : List (String × Demand)} {n : Note} {e : Expr} {label : String} {R : Demand}
      (hR : R.isDict = false) (hT : (R.get label).isDict = false) (h : Fits W D k Δ e R) :
      Fits W D k Δ (.proj n e label) (R.get label)
  | field {Δ : List (String × Demand)} {n : Note} {e : Expr} {label F : String} {T : Demand}
      (hT : T.isDict = false) (h : Fits W D k Δ e (.dict F))
      (hF : W.fields.lookup (F, label) = some T) : Fits W D k Δ (.proj n e label) T
  | var {Δ : List (String × Demand)} {n : Note} {x : String} {T : Demand}
      (hx : Δ.lookup x = some T) : Fits W D k Δ (.var n x) T
  | global {Δ : List (String × Demand)} {n : Note} {x : String} {T : Demand}
      (hx : W.globals.lookup x = some T) : Fits W D k Δ (.var n x) T
  | inst {Δ : List (String × Demand)} {n : Note} {F g : String} (hg : (F, g) ∈ W.instances) :
      Fits W D k Δ (.var n g) (.dict F)
  | builtin {Δ : List (String × Demand)} {n : Note} {x : String} {b : Builtin}
      (hb : Builtin.ofName? x = some b) : Fits W D k Δ (.var n x) .plain
  | val {Δ : List (String × Demand)} {n : Note} {v : Value} : Fits W D k Δ (.val n v) .plain
  | list {Δ : List (String × Demand)} {n : Note} {es : List Expr} {S : Demand}
      (h : ∀ e ∈ es, Fits W D k Δ e S) : Fits W D k Δ (.list n es) (.listOf S)
  | record {Δ : List (String × Demand)} {n : Note} {fs : List (String × Expr)} {Ss : List Demand}
      (hlen : (fs.map Prod.snd).length = Ss.length)
      (h : ∀ e S, (e, S) ∈ (fs.map Prod.snd).zip Ss → Fits W D k Δ e S) :
      Fits W D k Δ (.record n fs) (.ofFields ((fs.map Prod.fst).zip Ss))
  | copy {Δ : List (String × Demand)} {v : Expr} {F : String} {R : Demand}
      (hv : D F (v.shape [])) (hR : R.isDict = false) (hF : W.Serves F R)
      (h : Fits W D k [] v R) : Fits W D k Δ v (.dict F)

namespace Fits

variable {W : World} {D D' : String → Shape → Prop} {k k' : Nat} {Δ Δ' : List (String × Demand)}
  {e : Expr} {S : Demand}

/-- More names are old, and more dictionaries are known. -/
theorem mono (h : Fits W D k Δ e S) (hk : k ≤ k') (hD : ∀ F s, D F s → D' F s) :
    Fits W D' k' Δ e S := by
  induction h with
  | lam hx hold hparam _ ih => exact .lam hx (hold.mono hk) hparam ih
  | tlam _ ih => exact .tlam ih
  | cond hT _ _ _ ihc ihy ihz => exact .cond hT ihc ihy ihz
  | bin hT hop _ _ ihl ihr => exact .bin hT hop ihl ihr
  | equality hop _ _ ihl ihr => exact .equality hop ihl ihr
  | un _ ih => exact .un ih
  | app hT _ _ ihf iha => exact .app hT ihf iha
  | tapp _ ih => exact .tapp ih
  | ascribe _ ih => exact .ascribe ih
  | proj hR hT _ ih => exact .proj hR hT ih
  | field hT _ hF ih => exact .field hT ih hF
  | var hx => exact .var hx
  | global hx => exact .global hx
  | inst hg => exact .inst hg
  | builtin hb => exact .builtin hb
  | val => exact .val
  | list _ ih => exact .list ih
  | record hlen _ ih => exact .record hlen ih
  | copy hv hR hF _ ih => exact .copy (hD _ _ hv) hR hF ih

theorem later (h : Fits W D k Δ e S) (hk : k ≤ k') : Fits W D k' Δ e S :=
  h.mono hk fun _ _ => id

/-- Under more lambdas. -/
theorem weaken (h : Fits W D k Δ e S)
    (hΔ : ∀ x T, Δ.lookup x = some T → Δ'.lookup x = some T) : Fits W D k Δ' e S := by
  induction h generalizing Δ' with
  | lam hx hold hparam _ ih =>
    refine .lam hx hold hparam (ih fun y T hy => ?_)
    rw [Assoc.lookup_cons_if] at hy ⊢
    split_ifs at hy ⊢
    · exact hy
    · exact hΔ y T hy
  | tlam _ ih => exact .tlam (ih hΔ)
  | cond hT _ _ _ ihc ihy ihz => exact .cond hT (ihc hΔ) (ihy hΔ) (ihz hΔ)
  | bin hT hop _ _ ihl ihr => exact .bin hT hop (ihl hΔ) (ihr hΔ)
  | equality hop _ _ ihl ihr => exact .equality hop (ihl hΔ) (ihr hΔ)
  | un _ ih => exact .un (ih hΔ)
  | app hT _ _ ihf iha => exact .app hT (ihf hΔ) (iha hΔ)
  | tapp _ ih => exact .tapp (ih hΔ)
  | ascribe _ ih => exact .ascribe (ih hΔ)
  | proj hR hT _ ih => exact .proj hR hT (ih hΔ)
  | field hT _ hF ih => exact .field hT (ih hΔ) hF
  | var hx => exact .var (hΔ _ _ hx)
  | global hx => exact .global hx
  | inst hg => exact .inst hg
  | builtin hb => exact .builtin hb
  | val => exact .val
  | list _ ih => exact .list fun e he => ih e he hΔ
  | record hlen _ ih => exact .record hlen fun e S he => ih e S he hΔ
  | copy hv hR hF h _ => exact .copy hv hR hF h

theorem closed (h : Fits W D k [] e S) (Δ : List (String × Demand)) : Fits W D k Δ e S :=
  h.weaken fun _ _ hx => nomatch hx

/-- A record whose fields stand in two lists. -/
theorem record_zip {n : Note} {labels : List String} {es : List Expr} {Ss : List Demand}
    (hlabels : labels.length = es.length) (hlen : es.length = Ss.length)
    (h : ∀ e S, (e, S) ∈ es.zip Ss → Fits W D k Δ e S) :
    Fits W D k Δ (.record n (labels.zip es)) (.ofFields (labels.zip Ss)) := by
  have hsnd : (labels.zip es).map Prod.snd = es := List.map_snd_zip hlabels.ge
  have hfits : Fits W D k Δ (.record n (labels.zip es))
      (.ofFields (((labels.zip es).map Prod.fst).zip Ss)) :=
    .record (by rw [hsnd, hlen]) (by rwa [hsnd])
  rwa [List.map_fst_zip hlabels.le] at hfits

theorem exists_mem_zip {α β : Type} {as : List α} {bs : List β} (hlen : as.length = bs.length)
    {a : α} (ha : a ∈ as) : ∃ b, (a, b) ∈ as.zip bs := by
  have hfst : a ∈ (as.zip bs).map Prod.fst := by rwa [List.map_fst_zip hlen.le]
  obtain ⟨p, hp, rfl⟩ := List.mem_map.mp hfst
  exact ⟨p.2, hp⟩

/-- A variable has a demand, or names a global or a builtin. -/
theorem free (hW : W.Sound) (h : Fits W D k Δ e S) :
    ∀ x ∈ e.freeVars, (Δ.lookup x).isSome ∨ ¬W.Local x := by
  induction h with
  | @lam Δ n y p body S T hx hold hparam _ ih =>
    intro x hmem
    obtain ⟨hbody, hne⟩ := List.mem_filter.mp hmem
    have hbound := ih x hbody
    rwa [Assoc.lookup_cons_if, if_neg (of_decide_eq_true hne)] at hbound
  | tlam _ ih | un _ ih | tapp _ ih | ascribe _ ih | proj _ _ _ ih | field _ _ _ ih => exact ih
  | cond _ _ _ _ ihc ihy ihz =>
    exact List.forall_mem_append.mpr ⟨ihc, List.forall_mem_append.mpr ⟨ihy, ihz⟩⟩
  | bin _ _ _ _ ihl ihr | equality _ _ _ ihl ihr | app _ _ _ ihl ihr =>
    exact List.forall_mem_append.mpr ⟨ihl, ihr⟩
  | var hx =>
    intro x hmem
    rw [List.mem_singleton.mp hmem, hx]
    exact Or.inl rfl
  | global hx =>
    intro x hmem
    rw [List.mem_singleton.mp hmem]
    exact Or.inr (World.taken_of_lookup hx)
  | inst hg =>
    intro x hmem
    rw [List.mem_singleton.mp hmem]
    exact Or.inr (hW.taken_of_inst hg)
  | builtin hb =>
    intro x hmem
    rw [List.mem_singleton.mp hmem]
    exact Or.inr (World.taken_of_builtin hb)
  | val => exact fun x hmem => nomatch hmem
  | list _ ih =>
    intro x hmem
    rw [freeVars_of_form rfl] at hmem
    obtain ⟨e, he, hx⟩ := List.mem_flatMap.mp hmem
    exact ih e he x hx
  | record hlen _ ih =>
    intro x hmem
    rw [freeVars_of_form rfl] at hmem
    obtain ⟨e, he, hx⟩ := List.mem_flatMap.mp hmem
    obtain ⟨S, hS⟩ := exists_mem_zip hlen he
    exact ih e S hS x hx
  | copy _ _ _ _ ih =>
    intro x hmem
    exact Or.inr ((ih x hmem).resolve_left (by simp))

theorem free_closed (hW : W.Sound) (h : Fits W D k [] e S) : ∀ x ∈ e.freeVars, ¬W.Local x :=
  fun x hx => (h.free hW x hx).resolve_left (by simp)

/-- All names of the expression are old. -/
theorem old (hW : W.Sound) (h : Fits W D k Δ e S)
    (hΔ : ∀ x T, Δ.lookup x = some T → OldName k x) : ∀ x ∈ e.termNames, OldName k x := by
  induction h with
  | lam hx hold hparam _ ih =>
    refine List.forall_mem_cons.mpr ⟨hold, ih fun y T hy => ?_⟩
    rw [Assoc.lookup_cons_if] at hy
    split_ifs at hy with hyx
    · exact hyx ▸ hold
    · exact hΔ y T hy
  | tlam _ ih | un _ ih | tapp _ ih | ascribe _ ih | proj _ _ _ ih | field _ _ _ ih =>
    exact ih hΔ
  | cond _ _ _ _ ihc ihy ihz =>
    exact List.forall_mem_append.mpr ⟨ihc hΔ, List.forall_mem_append.mpr ⟨ihy hΔ, ihz hΔ⟩⟩
  | bin _ _ _ _ ihl ihr | equality _ _ _ ihl ihr | app _ _ _ ihl ihr =>
    exact List.forall_mem_append.mpr ⟨ihl hΔ, ihr hΔ⟩
  | var hx =>
    intro x hmem
    rw [List.mem_singleton.mp hmem]
    exact hΔ _ _ hx
  | global hx =>
    intro x hmem
    rw [List.mem_singleton.mp hmem]
    exact (hW.sourceName (World.taken_of_lookup hx)).old k
  | inst hg =>
    intro x hmem
    rw [List.mem_singleton.mp hmem]
    exact (hW.sourceName (hW.taken_of_inst hg)).old k
  | builtin hb =>
    intro x hmem
    rw [List.mem_singleton.mp hmem]
    exact (hW.sourceName (World.taken_of_builtin hb)).old k
  | val => exact fun x hmem => nomatch hmem
  | list _ ih =>
    intro x hmem
    rw [termNames_of_form rfl] at hmem
    obtain ⟨e, he, hx⟩ := List.mem_flatMap.mp hmem
    exact ih e he hΔ x hx
  | record hlen _ ih =>
    intro x hmem
    rw [termNames_of_form rfl] at hmem
    obtain ⟨e, he, hx⟩ := List.mem_flatMap.mp hmem
    obtain ⟨S, hS⟩ := exists_mem_zip hlen he
    exact ih e S hS hΔ x hx
  | copy _ _ _ _ ih => exact ih fun x T hx => nomatch hx

end Fits

/-- Nothing stands around a variable that does not occur. -/
theorem around_eq_nil (e : Expr) {x : String} (xs : List String) (h : x ∉ e.freeVars) :
    e.around x xs = [] := by
  induction e using Expr.induct_form generalizing xs with
  | var n y =>
    have hne : y ≠ x := fun he => h (by simp [freeVars, he])
    rw [around, if_neg hne]
  | lam n y p body ih =>
    rw [around]
    split_ifs with hy
    · rfl
    · refine ih (y :: xs) fun hx => h (List.mem_filter.mpr ⟨hx, ?_⟩)
      exact decide_eq_true (Ne.symm hy)
  | form e f hf ih =>
    rw [around_of_form hf, List.flatMap_eq_nil_iff]
    intro d hd
    refine ih d hd xs fun hx => h ?_
    rw [freeVars_of_form hf]
    exact List.mem_flatMap.mpr ⟨d, hd, hx⟩

/-- Each item is substituted at some state of the counter. -/
theorem forall₂_substItems (ρ : List (String × String)) (σ : Option (String × Expr))
    (es : List Expr) (k : Nat) :
    List.Forall₂ (fun e e' => ∃ j, k ≤ j ∧ ((e.substIn ρ σ).run j).1 = e' ∧
      ((e.substIn ρ σ).run j).2 ≤ ((substItems ρ σ es).run k).2) es
      ((substItems ρ σ es).run k).1 := by
  induction es generalizing k with
  | nil => exact .nil
  | cons e es ih =>
    rw [run_substItems_cons]
    have hle : ((e.substIn ρ σ).run k).2 ≤
        ((substItems ρ σ es).run ((e.substIn ρ σ).run k).2).2 :=
      substItems_drawn_le ρ σ (fun e _ => e.substIn_drawn_le ρ σ) _
    refine .cons ⟨k, le_rfl, rfl, hle⟩ ((ih _).imp fun d d' ⟨j, hj, hd, hend⟩ => ?_)
    exact ⟨j, (e.substIn_drawn_le ρ σ k).trans hj, hd, hend⟩

theorem forall_mem_of_forall₂ {α β : Type} {R : α → β → Prop} {as : List α} {bs : List β}
    (h : List.Forall₂ R as bs) {P : α → Prop} {Q : β → Prop} (ha : ∀ a ∈ as, P a)
    (hPQ : ∀ a b, R a b → P a → Q b) : ∀ b ∈ bs, Q b := by
  induction h with
  | nil => simp
  | cons hab _ ih =>
    obtain ⟨hfirst, hrest⟩ := List.forall_mem_cons.mp ha
    exact List.forall_mem_cons.mpr ⟨hPQ _ _ hab hfirst, ih hrest⟩

theorem forall_zip_of_forall₂ {α β γ : Type} {R : α → β → Prop} {as : List α} {bs : List β}
    (h : List.Forall₂ R as bs) {cs : List γ} {P : α → γ → Prop} {Q : β → γ → Prop}
    (ha : ∀ a c, (a, c) ∈ as.zip cs → P a c) (hPQ : ∀ a b c, R a b → P a c → Q b c) :
    ∀ b c, (b, c) ∈ bs.zip cs → Q b c := by
  induction h generalizing cs with
  | nil => simp
  | cons hab _ ih =>
    cases cs with
    | nil => simp
    | cons c cs =>
      intro b d hbd
      rcases List.mem_cons.mp hbd with he | hmem
      · obtain ⟨rfl, rfl⟩ := Prod.mk.inj he
        exact hPQ _ _ _ hab (ha _ _ List.mem_cons_self)
      · exact ih (fun a c hac => ha a c (List.mem_cons_of_mem _ hac)) b d hmem

open Ty (Underway renamed)

/-- A substitution of `new` for `x` on its way into an expression whose variables have the demands
`Δ`, as those of the result have the demands `Δ'`. -/
structure Moves (W : World) (D : String → Shape → Prop) (k₀ : Nat) (x : String) (new : Expr)
    (xs ys : List String) (ρ : List (String × String)) (σ : Option (String × Expr)) (k : Nat)
    (Δ Δ' : List (String × Demand)) : Prop where
  way : Underway k₀ x .emptyList xs ys ρ (σ.map fun s => (s.1, .emptyList)) k
  target : σ = some (x, new) ∨ σ = none
  notHidden : σ ≠ none → x ∉ xs
  name : W.Local x ∧ OldName k₀ x
  before : ∀ w ∈ xs, W.Local w
  after : ∀ w ∈ ys, W.Local w
  closed : ∀ w ∈ new.freeVars, ¬W.Local w
  bound : ∀ w S, Δ.lookup w = some S → w ∈ xs → Δ'.lookup (renamed ρ w) = some S
  replaced : ∀ w S, Δ.lookup w = some S → w ∉ xs → w = x ∧ Fits W D k₀ [] new S

namespace Moves

variable {W : World} {D : String → Shape → Prop} {k₀ k k' : Nat} {x y w : String} {new : Expr}
  {xs ys : List String} {ρ ρ' : List (String × String)} {σ σ' : Option (String × Expr)}
  {Δ Δ' : List (String × Demand)}

theorem later (h : Moves W D k₀ x new xs ys ρ σ k Δ Δ') (hk : k ≤ k') :
    Moves W D k₀ x new xs ys ρ σ k' Δ Δ' :=
  { h with way := h.way.mono hk }

/-- Where no variable is left. -/
theorem empty (h : Moves W D k₀ x new xs ys ρ σ k Δ Δ') :
    Moves W D k₀ x new xs ys ρ σ k [] [] :=
  { h with
    bound := fun _ _ hw => nomatch hw
    replaced := fun _ _ hw => nomatch hw }

theorem start {S : Demand} (hx : W.Local x) (hold : OldName k x)
    (hclosed : ∀ w ∈ new.freeVars, ¬W.Local w) (hnew : Fits W D k [] new S) :
    Moves W D k x new [] [] [] (some (x, new)) k [(x, S)] [] where
  way := .start k x .emptyList
  target := Or.inl rfl
  notHidden := by simp
  name := ⟨hx, hold⟩
  before := by simp
  after := by simp
  closed := hclosed
  bound := by simp
  replaced := by
    intro w T hw _
    rw [Assoc.lookup_cons_if] at hw
    split_ifs at hw with he
    · obtain rfl := Option.some.inj hw
      exact ⟨he, hnew⟩
    · cases hw

/-- The name that a lambda gets is local and old. -/
theorem binder (hW : W.Sound) (hin : Entered w ρ σ k y ρ' σ' k') (hw : W.Local w)
    (hold : OldName k w) : W.Local y ∧ OldName k' y := by
  cases hin with
  | hidden | kept => exact ⟨hw, hold⟩
  | renamed => exact ⟨hW.local_freshName w (k + 1), oldName_freshName w (k + 1)⟩

theorem way_enter (h : Moves W D k₀ x new xs ys ρ σ k Δ Δ') (hin : Entered w ρ σ k y ρ' σ' k')
    (hold : OldName k₀ w) :
    Underway k₀ x .emptyList (w :: xs) (y :: ys) ρ' (σ'.map fun s => (s.1, .emptyList)) k' := by
  cases hin with
  | hidden hσ =>
    refine h.way.hide hold ?_
    rcases hσ with rfl | ⟨new', rfl⟩
    · rcases h.way.target with ht | ht
      · cases ht
      · exact List.mem_cons_of_mem _ ht.2
    · rcases h.target with ht | ht
      · rw [(Prod.mk.inj (Option.some.inj ht)).1]
        exact List.mem_cons_self
      · cases ht
  | kept z new' hσ hne =>
    have hx : σ = some (x, new) := h.target.resolve_right (by simp [hσ])
    have hz : z = x := by simpa [hσ] using congrArg (Option.map Prod.fst) hx
    have hway := h.way
    rw [hx] at hway ⊢
    exact hway.keep hold (hz ▸ hne.symm) (by simp [Ty.free])
  | renamed z new' hσ hne =>
    have hx : σ = some (x, new) := h.target.resolve_right (by simp [hσ])
    have hway := h.way
    rw [hx] at hway ⊢
    exact hway.rename hold h.name.2 (by simp [Ty.free])

/-- Under a lambda. -/
theorem enter (hW : W.Sound) (h : Moves W D k₀ x new xs ys ρ σ k Δ Δ')
    (hin : Entered w ρ σ k y ρ' σ' k') (hw : W.Local w) (hold : OldName k₀ w) (S : Demand) :
    Moves W D k₀ x new (w :: xs) (y :: ys) ρ' σ' k' ((w, S) :: Δ) ((y, S) :: Δ') where
  way := h.way_enter hin hold
  target := by
    cases hin with
    | hidden => exact Or.inr rfl
    | kept | renamed => exact h.target
  notHidden := by
    intro hσ
    cases hin with
    | hidden => exact absurd rfl hσ
    | kept z new' hz hne | renamed z new' hz hne =>
      have hx : z = x := by
        simpa [hz] using congrArg (Option.map Prod.fst) (h.target.resolve_right hσ)
      exact fun hmem => (List.mem_cons.mp hmem).elim (fun he => hne (hx.trans he)) (h.notHidden hσ)
  name := h.name
  before := List.forall_mem_cons.mpr ⟨hw, h.before⟩
  after := List.forall_mem_cons.mpr ⟨(binder hW hin hw (hold.mono h.way.le)).1, h.after⟩
  closed := h.closed
  bound := by
    intro u T hu hmem
    rw [Assoc.lookup_cons_if] at hu
    by_cases huw : u = w
    · -- the parameter of the lambda itself
      rw [if_pos huw] at hu
      have hy : renamed ρ' u = y := by
        cases hin with
        | hidden | kept => rw [huw, Underway.renamed_erase_self]
        | renamed => rw [huw, Underway.renamed_cons_self]
      rw [hy, Assoc.lookup_cons_if, if_pos rfl, hu]
    · rw [if_neg huw] at hu
      have hxs : u ∈ xs := (List.mem_cons.mp hmem).resolve_left huw
      have hsame : renamed ρ' u = renamed ρ u ∧ renamed ρ u ≠ y := by
        cases hin with
        | hidden | kept =>
          exact ⟨Underway.renamed_erase_of_ne ρ huw, h.way.renamed_ne_old huw hold⟩
        | renamed =>
          exact ⟨by rw [Underway.renamed_cons_of_ne _ _ huw, Underway.renamed_erase_of_ne ρ huw],
            h.way.renamed_ne_fresh hxs w⟩
      rw [hsame.1, Assoc.lookup_cons_if, if_neg hsame.2]
      exact h.bound u T hu hxs
  replaced := by
    intro u T hu hmem
    obtain ⟨huw, hxs⟩ := not_or.mp (mt List.mem_cons.mpr hmem)
    rw [Assoc.lookup_cons_if, if_neg huw] at hu
    exact h.replaced u T hu hxs

end Moves

namespace Fits

variable {W : World} {D : String → Shape → Prop} {k₀ k : Nat} {x : String} {e new : Expr}
  {xs ys : List String} {ρ : List (String × String)} {σ : Option (String × Expr)}
  {Δ Δ' : List (String × Demand)} {S : Demand}

theorem substVar_of_lookup {n : Note} {w : String} (hm : Moves W D k₀ x new xs ys ρ σ k Δ Δ')
    (hw : Δ.lookup w = some S) : Fits W D k Δ' (substVar ρ σ n w) S := by
  by_cases hxs : w ∈ xs
  · have hbound := hm.bound w S hw hxs
    rcases hm.target with hσ | hσ
    · obtain ⟨n', hvar⟩ := substVar_some ρ x new n w
      have hne : renamed ρ w ≠ x := hm.way.kept w hxs x .emptyList (by rw [hσ]; rfl)
      rw [hσ, hvar, if_neg hne]
      exact .var hbound
    · obtain ⟨n', hvar⟩ := substVar_none ρ n w
      rw [hσ, hvar]
      exact .var hbound
  · obtain ⟨rfl, hnew⟩ := hm.replaced w S hw hxs
    -- the variable itself is not hidden here, so it is replaced
    have hσ : σ = some (w, new) := by
      refine hm.target.resolve_right fun hnone => ?_
      rcases hm.way.target with ht | ht
      · rw [hnone] at ht
        cases ht
      · exact hxs ht.2
    obtain ⟨n', hvar⟩ := substVar_some ρ w new n w
    have hsame : renamed ρ w = w := by rw [renamed, hm.way.outside w hxs, Option.getD_none]
    rw [hσ, hvar, if_pos hsame]
    exact (hnew.later hm.way.le).closed Δ'

theorem substVar_of_taken {n : Note} {w : String} (hm : Moves W D k₀ x new xs ys ρ σ k Δ Δ')
    (hw : ¬W.Local w) : ∃ n', substVar ρ σ n w = Expr.var n' w := by
  have hxs : w ∉ xs := fun hmem => hw (hm.before w hmem)
  have hsame : renamed ρ w = w := by rw [renamed, hm.way.outside w hxs, Option.getD_none]
  rcases hm.target with hσ | hσ
  · obtain ⟨n', hvar⟩ := substVar_some ρ x new n w
    have hne : w ≠ x := fun he => hw (he ▸ hm.name.1)
    rw [hσ, hvar, hsame, if_neg hne]
    exact ⟨n', rfl⟩
  · obtain ⟨n', hvar⟩ := substVar_none ρ n w
    rw [hσ, hvar, hsame]
    exact ⟨n', rfl⟩

/-- What has no variable to replace keeps its shape. -/
theorem shape_substIn_closed (hW : W.Sound) (hm : Moves W D k₀ x new xs ys ρ σ k Δ Δ')
    (hfree : ∀ w ∈ e.freeVars, ¬W.Local w) (hold : ∀ w ∈ e.termNames, OldName k₀ w)
    (hafter : ∀ w ∈ ((e.substIn ρ σ).run k).1.freeVars, ¬W.Local w) :
    ((e.substIn ρ σ).run k).1.shape [] = e.shape [] := by
  have hbefore : e.shape xs = e.shape [] :=
    (shape_eq_nil_iff e xs).mpr fun y hy hmem => hfree y hmem (hm.before y hy)
  have hresult : ((e.substIn ρ σ).run k).1.shape ys = ((e.substIn ρ σ).run k).1.shape [] :=
    (shape_eq_nil_iff _ ys).mpr fun y hy hmem => hafter y hmem (hm.after y hy)
  rw [← hbefore, ← hresult]
  have hway := hm.way
  rcases hm.target with hσ | hσ
  · have hx : x ∉ e.freeVars := fun hmem => hfree x hmem hm.name.1
    have hnot : x ∉ (e.shape xs).freeNames :=
      fun hmem => hx ((mem_freeNames_shape e xs x).mp hmem).1
    have hopen : (∀ z ∈ ys, z ∉ new.freeVars) ↔
        ∀ z ∈ xs, z ∈ new.freeVars → z ∈ new.freeTypes :=
      iff_of_true (fun z hz hmem => hm.closed z hmem (hm.after z hz))
        fun z hz hmem => (hm.closed z hmem (hm.before z hz)).elim
    rw [hσ] at hway ⊢
    have hnew : ∀ w ∈ new.freeVars, OldName k₀ w :=
      fun w hw => (hW.sourceName (hm.closed w hw)).old k₀
    have hsubst := (shape_substIn_some e hway (hm.notHidden (by simp [hσ])) hopen hm.name.2 hnew
      hold).mpr (by simp [around_eq_nil e xs hx])
    rw [hsubst, Shape.subst_eq_self _ _ _ hnot]
  · rw [hσ] at hway ⊢
    exact shape_substIn_none e hway hold

/-- Substitution of what fits. -/
theorem substIn (hW : W.Sound) (h : Fits W D k₀ Δ e S)
    (hm : Moves W D k₀ x new xs ys ρ σ k Δ Δ') :
    Fits W D ((e.substIn ρ σ).run k).2 Δ' ((e.substIn ρ σ).run k).1 S := by
  induction h generalizing xs ys ρ σ k Δ' with
  | @lam Δ n w p body S T hx hold hparam hbody ih =>
    obtain ⟨y, ρ', σ', k', hin, hrun⟩ := run_substIn_lam ρ σ k n w p body
    obtain ⟨hy, hyold⟩ := Moves.binder hW hin hx (hold.mono hm.way.le)
    have hm' := hm.enter hW hin hx hold S
    have hparam' : ∀ F, Dictionaries.Stands F y → S = .dict F := by
      cases hin with
      | hidden | kept => exact hparam
      | renamed => exact fun F hF => hparam F hF.of_freshName
    rcases hrun with hrun | ⟨rfl, rfl, rfl, hrun⟩
    · rw [hrun]
      exact .lam hy (hyold.mono (body.substIn_drawn_le ρ' σ' k')) hparam' (ih hm')
    · -- nothing is left to rename or replace, and the body is not entered
      rw [hrun]
      refine .lam hy hyold hparam' ((hbody.later hm'.way.le).weaken fun u T hu => ?_)
      by_cases hu' : u ∈ y :: xs
      · exact hm'.bound u T hu hu'
      · obtain ⟨rfl, -⟩ := hm'.replaced u T hu hu'
        rcases hm'.way.target with ht | ht
        · cases ht
        · exact absurd ht.2 hu'
  | tlam _ ih => exact .tlam (ih hm)
  | @cond _ _ c y z _ hT _ _ _ ihc ihy ihz =>
    have h₁ := c.substIn_drawn_le ρ σ k
    have h₂ := y.substIn_drawn_le ρ σ ((c.substIn ρ σ).run k).2
    have h₃ := z.substIn_drawn_le ρ σ ((y.substIn ρ σ).run ((c.substIn ρ σ).run k).2).2
    exact .cond hT ((ihc hm).later (h₂.trans h₃)) ((ihy (hm.later h₁)).later h₃)
      (ihz (hm.later (h₁.trans h₂)))
  | @bin _ _ _ l r _ hT hop _ _ ihl ihr =>
    have h₁ := l.substIn_drawn_le ρ σ k
    have h₂ := r.substIn_drawn_le ρ σ ((l.substIn ρ σ).run k).2
    exact .bin hT hop ((ihl hm).later h₂) (ihr (hm.later h₁))
  | @equality _ _ _ l r _ _ hop _ _ ihl ihr =>
    have h₁ := l.substIn_drawn_le ρ σ k
    have h₂ := r.substIn_drawn_le ρ σ ((l.substIn ρ σ).run k).2
    exact .equality hop ((ihl hm).later h₂) (ihr (hm.later h₁))
  | un _ ih => exact .un (ih hm)
  | @app _ _ f a _ _ hT _ _ ihf iha =>
    have h₁ := f.substIn_drawn_le ρ σ k
    have h₂ := a.substIn_drawn_le ρ σ ((f.substIn ρ σ).run k).2
    exact .app hT ((ihf hm).later h₂) (iha (hm.later h₁))
  | tapp _ ih => exact .tapp (ih hm)
  | ascribe _ ih => exact .ascribe (ih hm)
  | proj hR hT _ ih => exact .proj hR hT (ih hm)
  | field hT _ hF ih => exact .field hT (ih hm) hF
  | var hx => exact substVar_of_lookup hm hx
  | global hx =>
    obtain ⟨n', hvar⟩ := substVar_of_taken hm (World.taken_of_lookup hx)
    rw [run_substIn_var, hvar]
    exact .global hx
  | inst hg =>
    obtain ⟨n', hvar⟩ := substVar_of_taken hm (hW.taken_of_inst hg)
    rw [run_substIn_var, hvar]
    exact .inst hg
  | builtin hb =>
    obtain ⟨n', hvar⟩ := substVar_of_taken hm (World.taken_of_builtin hb)
    rw [run_substIn_var, hvar]
    exact .builtin hb
  | val => exact .val
  | @list _ _ es _ _ ih =>
    refine .list (forall_mem_of_forall₂ (forall₂_substItems ρ σ es k) ih ?_)
    rintro d d' ⟨j, hj, rfl, hend⟩ hd
    exact (hd (hm.later hj)).later hend
  | @record _ n fs Ss hlen _ ih =>
    have hitems := forall₂_substItems ρ σ (fs.map Prod.snd) k
    have hrun : ((Expr.record n fs).substIn ρ σ).run k =
        (.record n ((substFields ρ σ fs).run k).1, ((substFields ρ σ fs).run k).2) := rfl
    rw [hrun, run_substFields]
    refine record_zip (by simpa using hitems.length_eq) (hitems.length_eq.symm.trans hlen)
      (forall_zip_of_forall₂ hitems ih ?_)
    rintro d d' S ⟨j, hj, rfl, hend⟩ hd
    exact (hd (hm.later hj)).later hend
  | @copy Δ v F R hv hR hF h ih =>
    have hnew := ih hm.empty
    refine .copy ?_ hR hF hnew
    rwa [shape_substIn_closed hW hm (h.free_closed hW) (h.old hW fun x T hx => nomatch hx)
      (hnew.free_closed hW)]

/-- The body of a lambda with an argument that has its parameter's demand. -/
theorem subst {body : Expr} {T : Demand} (hW : W.Sound) (h : Fits W D k [(x, S)] body T)
    (hx : W.Local x) (hold : OldName k x) (hnew : Fits W D k [] new S) :
    Fits W D ((body.subst x new).run k).2 [] ((body.subst x new).run k).1 T :=
  h.substIn hW (.start hx hold (hnew.free_closed hW) hnew)

end Fits

end Expr

end TraitCalculus
