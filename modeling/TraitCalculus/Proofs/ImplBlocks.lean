import Mathlib
import TraitCalculus.Proofs.AppliedAbbreviations
import TraitCalculus.Proofs.Matching

/-! Which implementations of a trait are accepted. An implementation becomes a record that is
ascribed the trait's type at the implementing type; resolution instantiates that type and typing
compares the record's type with it. What is left of this is a condition on the block: it assigns
the names of the trait's fields and no others, and the expressions have the types of the fields
with the implementing type in place of the trait's parameter. Where a name is assigned more than
once, the last assignment counts and the others are not looked at. -/
namespace TraitCalculus

namespace Item

/-- The type name that a statement defines. -/
def defines : Item → Option String
  | typedef _ x _ => some x
  | trait _ x _ _ => some x
  | struct _ x _ => some x
  | _ => none

theorem defines_of_mem {k : Nat} {item : Item} {ds : List Decl} {line : Nat} {x : String} {t : Ty}
    (h : item.desugar k = .ok ds) (hm : Decl.typedef line x t ∈ ds) : item.defines = some x := by
  cases item with
  | assign l y e | eval l e | impl l y type members =>
    obtain rfl := Except.ok.inj h
    simp at hm
  | typedef l y u =>
    obtain rfl := Except.ok.inj h
    obtain ⟨-, rfl, -⟩ := Decl.typedef.inj (List.mem_singleton.mp hm)
    rfl
  | trait l y params members =>
    simp only [desugar] at h
    split at h
    · split at h
      · cases h
      · obtain rfl := Except.ok.inj h
        rcases List.mem_cons.mp hm with heq | hm
        · obtain ⟨-, rfl, -⟩ := Decl.typedef.inj heq
          rfl
        · simp at hm
    · cases h
  | struct l y members =>
    simp only [desugar] at h
    split at h
    · cases h
    · obtain rfl := Except.ok.inj h
      rcases List.mem_cons.mp hm with heq | hm
      · obtain ⟨-, rfl, -⟩ := Decl.typedef.inj heq
        rfl
      · simp at hm

theorem desugarAll_eq (k : Nat) (done : List Decl) (items : List Item) :
    desugarAll k done items = (desugarAll k [] items).map (done.reverse ++ ·) := by
  induction items generalizing k done with
  | nil => simp [desugarAll, Except.map]
  | cons item items ih =>
    rw [desugarAll, desugarAll]
    cases item.desugar k with
    | error e => rfl
    | ok ds =>
      simp only
      rw [ih _ (ds.reverse ++ done), ih _ (ds.reverse ++ [])]
      cases desugarAll (if item.isImpl then k + 1 else k) [] items with
      | error e => rfl
      | ok rest => simp [Except.map]

theorem desugarAll_cons_iff {k : Nat} {item : Item} {items : List Item} {ds : List Decl} :
    desugarAll k [] (item :: items) = .ok ds ↔ ∃ new rest, item.desugar k = .ok new ∧
      desugarAll (if item.isImpl then k + 1 else k) [] items = .ok rest ∧ ds = new ++ rest := by
  rw [desugarAll]
  cases item.desugar k with
  | error e => simp
  | ok new =>
    simp only
    rw [desugarAll_eq]
    cases desugarAll (if item.isImpl then k + 1 else k) [] items with
    | error e => simp [Except.map]
    | ok rest => simp [Except.map, eq_comm]

/-- The declarations of a statement, between those of the statements around it. -/
theorem desugarAll_append_cons {k : Nat} {before after : List Item} {item : Item} {ds : List Decl}
    (h : desugarAll k [] (before ++ item :: after) = .ok ds) :
    ∃ ds₀ i new j rest, desugarAll k [] before = .ok ds₀ ∧ item.desugar i = .ok new ∧
      desugarAll j [] after = .ok rest ∧ ds = ds₀ ++ (new ++ rest) := by
  induction before generalizing k ds with
  | nil =>
    obtain ⟨new, rest, hnew, hrest, rfl⟩ := desugarAll_cons_iff.mp h
    exact ⟨[], k, new, _, rest, rfl, hnew, hrest, rfl⟩
  | cons first before ih =>
    obtain ⟨new₀, rest₀, hfirst, hrest₀, rfl⟩ := desugarAll_cons_iff.mp h
    obtain ⟨ds₀, i, new, j, rest, hbefore, hnew, hrest, rfl⟩ := ih hrest₀
    exact ⟨new₀ ++ ds₀, i, new, j, rest,
      desugarAll_cons_iff.mpr ⟨new₀, ds₀, hfirst, hbefore, rfl⟩, hnew, hrest,
      (List.append_assoc new₀ ds₀ _).symm⟩

theorem exists_defines_of_mem {k : Nat} {items : List Item} {ds : List Decl} {line : Nat}
    {x : String} {t : Ty} (h : desugarAll k [] items = .ok ds)
    (hm : Decl.typedef line x t ∈ ds) : ∃ item ∈ items, item.defines = some x := by
  induction items generalizing k ds with
  | nil =>
    obtain rfl := Except.ok.inj h
    cases hm
  | cons item items ih =>
    obtain ⟨new, rest, hnew, hrest, rfl⟩ := desugarAll_cons_iff.mp h
    rcases List.mem_append.mp hm with hm | hm
    · exact ⟨item, List.mem_cons_self, defines_of_mem hnew hm⟩
    · obtain ⟨other, hother, hdef⟩ := ih hrest hm
      exact ⟨other, List.mem_cons_of_mem item hother, hdef⟩

/-- The abbreviations behind some statements, and the number of names drawn there. -/
def Leaves (items : List Item) (aliases : Aliases) (k : Nat) : Prop :=
  ∃ ds done, desugarAll 0 [] items = .ok ds ∧
    (ds.foldlM Decl.step ([], [])).run 0 = .ok ((aliases, done), k)

end Item

namespace Decl

theorem lookup_step {d : Decl} {table table' : Aliases × List Stmt} {k k' : Nat} {x : String}
    (hd : ∀ line t, d ≠ typedef line x t) (h : (step table d).run k = .ok (table', k')) :
    table'.1.lookup x = table.1.lookup x := by
  cases d with
  | typedef line y t =>
    obtain ⟨t', ht, rfl⟩ := run_bind_pure_eq_ok h
    have hxy : x ≠ y := fun he => hd line t (he ▸ rfl)
    exact Assoc.lookup_insert_of_ne t' table.1 hxy
  | stmt s =>
    obtain ⟨s', hs, rfl⟩ := run_bind_pure_eq_ok h
    rfl

/-- An abbreviation stays in force until the next one of its name. -/
theorem lookup_foldlM {ds : List Decl} {table table' : Aliases × List Stmt} {k k' : Nat}
    {x : String} (hds : ∀ line t, typedef line x t ∉ ds)
    (h : (ds.foldlM step table).run k = .ok (table', k')) :
    table'.1.lookup x = table.1.lookup x := by
  induction ds generalizing table k with
  | nil =>
    obtain ⟨rfl, rfl⟩ := run_pure_eq_ok h
    rfl
  | cons d ds ih =>
    rw [List.foldlM_cons] at h
    obtain ⟨table₁, k₁, hd, hrest⟩ := run_bind_eq_ok h
    have hne : ∀ line t, d ≠ typedef line x t :=
      fun line t he => hds line t (he ▸ List.mem_cons_self)
    have hin : ∀ line t, typedef line x t ∉ ds :=
      fun line t hm => hds line t (List.mem_cons_of_mem d hm)
    rw [ih hin hrest, lookup_step hne hd]

end Decl

namespace Item

/-- The fields of a trait as they are written. -/
def written (fields : List (Member Ty)) : List (String × Ty) := fields.map fun m => (m.name, m.item)

theorem desugar_trait {k line : Nat} {name a : String} {fields : List (Member Ty)}
    {ds : List Decl} (h : (trait line name [a] fields).desugar k = .ok ds) :
    repeated? [] (fields.map (·.name)) = none ∧
      ds = .typedef line name (.all none a [name] (.record none (written fields))) ::
        fields.map fun m => .stmt (.field line m.name name (.all (some line) a [name] m.item)) := by
  simp only [desugar, recordType] at h
  cases hrep : repeated? [] (fields.map (·.name)) with
  | some x =>
    rw [hrep] at h
    cases h
  | none =>
    rw [hrep] at h
    exact ⟨rfl, (Except.ok.inj h).symm⟩

theorem repeated?_eq_none {seen xs : List String} :
    repeated? seen xs = none ↔ xs.Nodup ∧ ∀ x ∈ xs, x ∉ seen := by
  induction xs generalizing seen with
  | nil => simp [repeated?]
  | cons x xs ih =>
    rw [repeated?]
    split_ifs with hx
    · simp [hx]
    · rw [ih, List.nodup_cons, List.forall_mem_cons]
      simp only [List.mem_cons, not_or]
      grind

/-- What a trait that has not been redefined is known as: its parameter, and the types of its
fields as they were resolved where the trait stands. -/
theorem lookup_trait {pre mid : List Item} {line : Nat} {F a : String}
    {fields : List (Member Ty)} {aliases : Aliases} {k : Nat}
    (h : Leaves (pre ++ .trait line F [a] fields :: mid) aliases k)
    (hmid : ∀ item ∈ mid, item.defines ≠ some F) :
    (fields.map (·.name)).Nodup ∧ ∃ aliases₀ k₀ k₁ Ts, Leaves pre aliases₀ k₀ ∧
      (Ty.resolveFields aliases₀ [a] (written fields)).run k₀ = .ok (Ts, k₁) ∧
      aliases.lookup F = some (.all none a [F] (.record none Ts)) := by
  obtain ⟨ds, done, hds, hfold⟩ := h
  obtain ⟨ds₀, i, new, j, rest, hpre, htrait, hrest, rfl⟩ := desugarAll_append_cons hds
  obtain ⟨hdistinct, rfl⟩ := desugar_trait htrait
  rw [List.foldlM_append] at hfold
  obtain ⟨⟨aliases₀, done₀⟩, k₀, hfold₀, hfold⟩ := run_bind_eq_ok hfold
  rw [List.cons_append, List.foldlM_cons] at hfold
  obtain ⟨table₁, k₁, hstep, hfold⟩ := run_bind_eq_ok hfold
  obtain ⟨t, ht, rfl⟩ := run_bind_pure_eq_ok hstep
  obtain ⟨body, hbody, rfl⟩ := run_bind_pure_eq_ok ht
  obtain ⟨Ts, hTs, rfl⟩ := run_bind_pure_eq_ok hbody
  refine ⟨(repeated?_eq_none.mp hdistinct).1, aliases₀, k₀, _, Ts, ⟨ds₀, done₀, hpre, hfold₀⟩, hTs,
    ?_⟩
  -- the declarations of the fields and those that follow do not define the name again
  have hrest' : ∀ l t, Decl.typedef l F t ∉ (fields.map fun m => Decl.stmt (.field line m.name F
      (.all (some line) a [F] m.item))) ++ rest := by
    intro l t hm
    rcases List.mem_append.mp hm with hm | hm
    · obtain ⟨m, -, heq⟩ := List.mem_map.mp hm
      cases heq
    · obtain ⟨item, hitem, hdef⟩ := exists_defines_of_mem hrest hm
      exact hmid item hitem hdef
  rw [Decl.lookup_foldlM hrest' hfold, Assoc.lookup_insert_self]

end Item

/-- What a block assigns to each name: its last expression. The names are in the order in which
they come first. -/
structure Assigned (members : List (Member Expr)) (fs : List (String × Expr)) : Prop where
  names : fs.map (·.1) = (members.map (·.name)).reverse.dedup.reverse
  last : ∀ x, fs.lookup x = (members.reverse.find? (·.name = x)).map (·.item)

namespace Assigned

theorem keys_insert {α : Type} (x : String) (a : α) (xs : List (String × α)) :
    (Assoc.insert x a xs).map (·.1) =
      if x ∈ xs.map (·.1) then xs.map (·.1) else xs.map (·.1) ++ [x] := by
  induction xs with
  | nil => simp [Assoc.insert]
  | cons p xs ih =>
    by_cases hp : p.1 = x
    · simp [Assoc.insert, hp]
    · have hx : x ≠ p.1 := Ne.symm hp
      rw [Assoc.insert, if_neg hp, List.map_cons, ih]
      simp only [List.map_cons, List.mem_cons, hx, false_or]
      split_ifs <;> rfl

theorem of_foldl (members : List (Member Expr)) :
    Assigned members (members.foldl (fun fs m => Assoc.insert m.name m.item fs) []) := by
  induction members using List.reverseRecOn with
  | nil => exact ⟨rfl, fun x => rfl⟩
  | append_singleton members m ih =>
    rw [List.foldl_append, List.foldl_cons, List.foldl_nil]
    constructor
    · rw [keys_insert, ih.names]
      simp only [List.map_append, List.map_cons, List.map_nil, List.reverse_append,
        List.reverse_cons, List.reverse_nil, List.nil_append, List.singleton_append,
        List.mem_reverse, List.mem_dedup]
      by_cases hm : m.name ∈ (members.map (·.name)).reverse
      · rw [List.dedup_cons_of_mem hm, if_pos (List.mem_reverse.mp hm)]
      · rw [List.dedup_cons_of_notMem hm, if_neg (fun h => hm (List.mem_reverse.mpr h)),
          List.reverse_cons]
    · intro x
      rw [List.reverse_append, List.reverse_singleton, List.singleton_append, List.find?_cons]
      by_cases hx : m.name = x
      · subst hx
        simp [Assoc.lookup_insert_self]
      · rw [Assoc.lookup_insert_of_ne _ _ (Ne.symm hx), ih.last]
        simp [hx]

variable {members : List (Member Expr)} {fs : List (String × Expr)}

theorem nodup (h : Assigned members fs) : (fs.map (·.1)).Nodup := by
  rw [h.names, List.nodup_reverse]
  exact List.nodup_dedup _

theorem mem_names (h : Assigned members fs) (x : String) :
    x ∈ fs.map (·.1) ↔ x ∈ members.map (·.name) := by
  rw [h.names, List.mem_reverse, List.mem_dedup, List.mem_reverse]

end Assigned

namespace Ty

variable {aliases : Aliases} {F a : String} {bounds : List String} {Ts : List (String × Ty)}

/-- The type that an implementation is ascribed: the trait's record at the resolved type. -/
theorem run_resolve_instance (hF : F ∉ basicNames)
    (hlookup : aliases.lookup F = some (all none a bounds (record none Ts))) {S t : Ty}
    {k k' : Nat} : ((app none (name none F) S).resolve aliases []).run k = .ok (t, k') ↔
      ∃ S' k₁, (S.resolve aliases []).run k = .ok (S', k₁) ∧
        ((record none Ts).subst a S').run k₁ = (t, k') := by
  have hname : ((name none F).resolve aliases []).run k =
      .ok (all none a bounds (record none Ts), k) := by
    simp [resolve, resolveName, hF, hlookup]
  rw [resolve, run_bind_of_ok hname]
  constructor
  · intro h
    obtain ⟨S', k₁, hS, h⟩ := run_bind_eq_ok h
    exact ⟨S', k₁, hS, Except.ok.inj h⟩
  · rintro ⟨S', k₁, hS, h⟩
    rw [run_bind_of_ok hS, ← h]
    rfl

theorem run_subst_record (Ts : List (String × Ty)) (a : String) (S : Ty) (k : Nat) :
    ((record none Ts).subst a S).run k =
      (record none ((substFields [] (some (a, S)) Ts).run k).1,
        ((substFields [] (some (a, S)) Ts).run k).2) :=
  rfl

theorem labels_substFields (ρ : List (String × String)) (σ : Option (String × Ty))
    (fields : List (String × Ty)) (k : Nat) :
    ((substFields ρ σ fields).run k).1.map (·.1) = fields.map (·.1) := by
  induction fields generalizing k with
  | nil => rfl
  | cons f fields ih =>
    rw [run_substFields_cons, List.map_cons, List.map_cons, ih]

theorem labels_resolveFields {bound : List String} {fields fields' : List (String × Ty)}
    {k k' : Nat} (h : (resolveFields aliases bound fields).run k = .ok (fields', k')) :
    fields'.map (·.1) = fields.map (·.1) := by
  induction fields generalizing k fields' with
  | nil =>
    obtain ⟨rfl, rfl⟩ := run_pure_eq_ok h
    rfl
  | cons f fields ih =>
    obtain ⟨t', k₁, -, h⟩ := run_bind_eq_ok h
    obtain ⟨rest, hrest, rfl⟩ := run_bind_pure_eq_ok h
    rw [List.map_cons, List.map_cons, ih hrest]

end Ty

namespace Expr

theorem labels_resolveFields {aliases : Aliases} {bound : List String}
    {fs fs' : List (String × Expr)} {k k' : Nat}
    (h : (resolveFields aliases bound fs).run k = .ok (fs', k')) :
    fs'.map (·.1) = fs.map (·.1) := by
  induction fs generalizing k fs' with
  | nil =>
    obtain ⟨rfl, rfl⟩ := run_pure_eq_ok h
    rfl
  | cons f fs ih =>
    obtain ⟨e', k₁, -, h⟩ := run_bind_eq_ok h
    obtain ⟨rest, hrest, rfl⟩ := run_bind_pure_eq_ok h
    rw [List.map_cons, List.map_cons, ih hrest]

/-- The expressions are typed one after the other, and each has the type that is wanted under its
name. -/
inductive TypedInTurn (Γ : Scope Entry) (wanted : List (String × Ty)) :
    TypingState → List (String × Expr) → Prop
  | nil {st : TypingState} : TypedInTurn Γ wanted st []
  | cons {st st' : TypingState} {x : String} {e e' : Expr} {t u : Ty} {fs : List (String × Expr)}
      (he : (e.infer Γ).run st = .ok ((e', t), st')) (hx : wanted.lookup x = some u)
      (ht : t.same u = true) (hfs : TypedInTurn Γ wanted st' fs) :
      TypedInTurn Γ wanted st ((x, e) :: fs)

theorem labels_typeFields {rule : AppRule} {Γ : Scope Entry} {fs : List (String × Expr)}
    {r : List (String × Expr) × List (String × Ty)} {st st' : TypingState}
    (h : (typeFields rule Γ fs).run st = .ok (r, st')) : r.2.map (·.1) = fs.map (·.1) := by
  induction fs generalizing r st with
  | nil =>
    obtain ⟨rfl, rfl⟩ := run_pure_eq_ok h
    rfl
  | cons f fs ih =>
    obtain ⟨⟨e', t⟩, st₁, -, h⟩ := run_bind_eq_ok h
    obtain ⟨rest, hrest, rfl⟩ := run_bind_pure_eq_ok h
    rw [List.map_cons, List.map_cons, ih hrest]

theorem typedInTurn_iff {Γ : Scope Entry} {wanted : List (String × Ty)} {st : TypingState}
    {fs : List (String × Expr)} : TypedInTurn Γ wanted st fs ↔
      ∃ r st', (typeFields inferApp Γ fs).run st = .ok (r, st') ∧
        ∀ f ∈ r.2, ∃ u, wanted.lookup f.1 = some u ∧ f.2.same u = true := by
  induction fs generalizing st with
  | nil => exact ⟨fun _ => ⟨([], []), st, rfl, by simp⟩, fun _ => .nil⟩
  | cons f fs ih =>
    obtain ⟨x, e⟩ := f
    constructor
    · intro h
      cases h with
      | @cons _ st₁ _ _ e' t u _ he hx ht hfs =>
        have he : (e.typeWith inferApp Γ).run st = .ok ((e', t), st₁) := he
        obtain ⟨r, st', hr, hall⟩ := ih.mp hfs
        refine ⟨((x, e') :: r.1, (x, t) :: r.2), st', ?_,
          List.forall_mem_cons.mpr ⟨⟨u, hx, ht⟩, hall⟩⟩
        rw [typeFields, run_bind_of_ok he, run_bind_of_ok hr]
        rfl
    · rintro ⟨r, st', hr, hall⟩
      obtain ⟨⟨e', t⟩, st₁, he, hr⟩ := run_bind_eq_ok hr
      obtain ⟨rest, hrest, rfl⟩ := run_bind_pure_eq_ok hr
      obtain ⟨⟨u, hx, ht⟩, hall⟩ := List.forall_mem_cons.mp hall
      exact .cons he hx ht (ih.mpr ⟨rest, _, hrest, hall⟩)

/-- A record that is ascribed a record type. -/
theorem infer_ascribe_record {Γ : Scope Entry} {n m : Note} {fs : List (String × Expr)}
    {Is : List (String × Ty)} {st : TypingState} (hfs : (fs.map (·.1)).Nodup)
    (hIs : (Is.map (·.1)).Nodup) :
    (∃ r, ((ascribe n (record m fs) (.record none Is)).infer Γ).run st = .ok r) ↔
      (∀ x, x ∈ fs.map (·.1) ↔ x ∈ Is.map (·.1)) ∧ TypedInTurn Γ Is st fs := by
  have hsame {ts : List (String × Ty)} (hts : ts.map (·.1) = fs.map (·.1)) :
      Ty.sameFields ts Is = true ↔ (∀ x, x ∈ fs.map (·.1) ↔ x ∈ Is.map (·.1)) ∧
        ∀ f ∈ ts, ∃ u, Is.lookup f.1 = some u ∧ f.2.same u = true := by
    rw [Ty.sameFields_iff_lookup (hts ▸ hfs) hIs, Ty.sameLabels_iff, hts]
  rw [typedInTurn_iff]
  constructor
  · rintro ⟨r, h⟩
    obtain ⟨⟨e', s⟩, st₁, hrecord, h⟩ := run_bind_eq_ok h
    obtain ⟨⟨fs', ts⟩, st₂, hts, hret⟩ := run_bind_eq_ok hrecord
    obtain ⟨heq, rfl⟩ := run_pure_eq_ok hret
    obtain ⟨rfl, rfl⟩ := Prod.mk.inj heq
    obtain ⟨t, st₂, hrule, -⟩ := run_bind_eq_ok h
    have hascribe : Ty.sameFields ts Is = true := by
      by_contra hne
      have hfail : Rule.ascribe n.line (.record none Is) (.record none ts) =
          .error (.fault n.line (.wrongAscription (.record none Is) (.record none ts))) :=
        if_neg hne
      obtain ⟨hok, -⟩ := run_lift_eq_ok hrule
      rw [hfail] at hok
      cases hok
    obtain ⟨hnames, hall⟩ := (hsame (labels_typeFields hts)).mp hascribe
    exact ⟨hnames, (fs', ts), _, hts, hall⟩
  · rintro ⟨hnames, ⟨fs', ts⟩, st', hts, hall⟩
    have hascribe : Ty.sameFields ts Is = true := (hsame (labels_typeFields hts)).mpr ⟨hnames, hall⟩
    have hok : Rule.ascribe n.line (.record none Is) (.record none ts) = .ok (.record none ts) :=
      if_pos hascribe
    refine ⟨(annotate (ascribe n (annotate (record m fs') (.record none ts)).1 (.record none Is))
      (.record none ts), st'), ?_⟩
    rw [infer, typeWith, typeWith, bind_assoc, run_bind_of_ok hts]
    simp only [pure_bind, annotate, hok]
    rfl

end Expr

namespace Ty

/-- Resolution from two counters: the outcomes differ in drawn names at most. -/
theorem resolve_anew (t : Ty) {aliases : Aliases} {bound : List String} {k k' j : Nat} {t' : Ty}
    (hk : Aliases.Within k aliases) (hj : Aliases.Within j aliases)
    (htk : ∀ w ∈ t.names, OldName k w) (htj : ∀ w ∈ t.names, OldName j w)
    (h : (t.resolve aliases bound).run k = .ok (t', k')) :
    ∃ u j', (t.resolve aliases bound).run j = .ok (u, j') ∧ t'.AlphaEq u := by
  induction t using Ty.induction generalizing bound k k' j t' with
  | name line x =>
    obtain ⟨hname, rfl⟩ := run_lift_eq_ok h
    refine ⟨t', j, ?_, rfl⟩
    rw [resolve, hname]
    rfl
  | all line x bounds body ih =>
    obtain ⟨body', hbody, rfl⟩ := run_bind_pure_eq_ok h
    obtain ⟨u, j₁, hu, hα⟩ := ih hk hj (fun w hw => htk w (List.mem_cons_of_mem x hw))
      (fun w hw => htj w (List.mem_cons_of_mem x hw)) hbody
    refine ⟨all line x bounds u, j₁, ?_, ?_⟩
    · rw [resolve, run_bind_of_ok hu]
      rfl
    · have hclose : body'.nameless [x] = u.nameless [x] := by
        rw [nameless_singleton, nameless_singleton, hα]
      exact congrArg (Nameless.all bounds) hclose
  | arrow line dom cod ihd ihc =>
    obtain ⟨dom', k₁, hdom, h⟩ := run_bind_eq_ok h
    obtain ⟨cod', hcod, rfl⟩ := run_bind_pure_eq_ok h
    obtain ⟨hdk, hck⟩ := List.forall_mem_append.mp htk
    obtain ⟨hdj, hcj⟩ := List.forall_mem_append.mp htj
    obtain ⟨u, j₁, hu, hα⟩ := ihd hk hj hdk hdj hdom
    obtain ⟨hk₁, -⟩ := within_resolve dom (fun _ => id) hk hdk hdom
    obtain ⟨hj₁, -⟩ := within_resolve dom (fun _ => id) hj hdj hu
    obtain ⟨v, j₂, hv, hα'⟩ := ihc (hk.later hk₁) (hj.later hj₁)
      (fun w hw => (hck w hw).mono hk₁) (fun w hw => (hcj w hw).mono hj₁) hcod
    refine ⟨arrow none u v, j₂, ?_, congrArg₂ Nameless.arrow hα hα'⟩
    rw [resolve, run_bind_of_ok hu, run_bind_of_ok hv]
    rfl
  | app line fn arg ihf iha =>
    rw [resolve_app] at h
    obtain ⟨fn', k₁, hfn, h⟩ := run_bind_eq_ok h
    obtain ⟨arg', k₂, harg, h⟩ := run_bind_eq_ok h
    obtain ⟨hfk, hak⟩ := List.forall_mem_append.mp htk
    obtain ⟨hfj, haj⟩ := List.forall_mem_append.mp htj
    obtain ⟨u, j₁, hu, hα⟩ := ihf hk hj hfk hfj hfn
    obtain ⟨hk₁, hwf⟩ := within_resolve fn (fun _ => id) hk hfk hfn
    obtain ⟨hj₁, hwu⟩ := within_resolve fn (fun _ => id) hj hfj hu
    have hak₁ : ∀ w ∈ arg.names, OldName k₁ w := fun w hw => (hak w hw).mono hk₁
    have haj₁ : ∀ w ∈ arg.names, OldName j₁ w := fun w hw => (haj w hw).mono hj₁
    obtain ⟨v, j₂, hv, hα'⟩ := iha (hk.later hk₁) (hj.later hj₁) hak₁ haj₁ harg
    obtain ⟨hk₂, hwa⟩ := within_resolve arg (fun _ => id) (hk.later hk₁) hak₁ harg
    obtain ⟨hj₂, hwv⟩ := within_resolve arg (fun _ => id) (hj.later hj₁) haj₁ hv
    rw [resolve_app, run_bind_of_ok hu, run_bind_of_ok hv]
    -- both functions are quantified types with one nameless form, whatever their variables
    have happ := applied_nameless line [] (hwf.later hk₂) hwa
    have happ' := applied_nameless line [] (hwu.later hj₂) hwv
    rw [h] at happ
    rw [← hα, ← hα', ← happ] at happ'
    cases hrun : (applyTo line u v).run j₂ with
    | error e =>
      rw [hrun] at happ'
      cases happ'
    | ok r =>
      rw [hrun] at happ'
      exact ⟨r.1, r.2, rfl, (Option.some.inj happ').symm⟩
  | list line elem ih =>
    obtain ⟨elem', helem, rfl⟩ := run_bind_pure_eq_ok h
    obtain ⟨u, j₁, hu, hα⟩ := ih hk hj htk htj helem
    refine ⟨list none u, j₁, ?_, congrArg Nameless.list hα⟩
    rw [resolve, run_bind_of_ok hu]
    rfl
  | emptyList =>
    obtain ⟨rfl, rfl⟩ := run_pure_eq_ok h
    exact ⟨emptyList, j, rfl, rfl⟩
  | record line fields ih =>
    obtain ⟨fields', hfields, rfl⟩ := run_bind_pure_eq_ok h
    suffices hfs : ∃ us j', (resolveFields aliases bound fields).run j = .ok (us, j') ∧
        namelessFields [] fields' = namelessFields [] us by
      obtain ⟨us, j', hus, hα⟩ := hfs
      refine ⟨record none us, j', ?_, congrArg Nameless.record hα⟩
      rw [resolve, run_bind_of_ok hus]
      rfl
    have hfk : ∀ f ∈ fields, ∀ w ∈ f.2.names, OldName k w :=
      fun f hf w hw => htk w (mem_namesFields.mpr ⟨f, hf, hw⟩)
    have hfj : ∀ f ∈ fields, ∀ w ∈ f.2.names, OldName j w :=
      fun f hf w hw => htj w (mem_namesFields.mpr ⟨f, hf, hw⟩)
    clear htk htj h
    induction fields generalizing k j fields' with
    | nil =>
      obtain ⟨rfl, rfl⟩ := run_pure_eq_ok hfields
      exact ⟨[], j, rfl, rfl⟩
    | cons f fields ihs =>
      obtain ⟨t', k₁, ht', h⟩ := run_bind_eq_ok hfields
      obtain ⟨rest, hrest, rfl⟩ := run_bind_pure_eq_ok h
      obtain ⟨hk₀, hks⟩ := List.forall_mem_cons.mp hfk
      obtain ⟨hj₀, hjs⟩ := List.forall_mem_cons.mp hfj
      obtain ⟨u, j₁, hu, hα⟩ := ih f List.mem_cons_self hk hj hk₀ hj₀ ht'
      obtain ⟨hk₁, -⟩ := within_resolve f.2 (fun _ => id) hk hk₀ ht'
      obtain ⟨hj₁, -⟩ := within_resolve f.2 (fun _ => id) hj hj₀ hu
      obtain ⟨us, j₂, hus, hαs⟩ := ihs (fun g hg => ih g (List.mem_cons_of_mem f hg))
        (hk.later hk₁) (hj.later hj₁) rest hrest (fun g hg w hw => (hks g hg w hw).mono hk₁)
        (fun g hg w hw => (hjs g hg w hw).mono hj₁)
      refine ⟨(f.1, u) :: us, j₂, ?_, ?_⟩
      · rw [resolveFields, run_bind_of_ok hu, run_bind_of_ok hus]
        rfl
      · rw [namelessFields, namelessFields, hα, hαs]

end Ty

theorem Stmt.inferAll_impl {Γ : Scope Entry} {st : TypingState} {line : Nat} {x F : String}
    {e d : Expr} {S : Ty} :
    (∃ r, (inferAll Γ st "" [] [assign line x e, inst line F S d]).2 = .ok r) ↔
      ∃ r, (e.infer Γ).run st = .ok r := by
  have hrun : ((assign line x e).infer Γ).run st = ((e.infer Γ).run st).map fun r =>
      ((assign line x r.1.1, Γ.set x (.term r.1.2),
        (assign line x r.1.1).render ++ " // : " ++ r.1.2.render ++ "\n"), r.2) := by
    rw [infer, StateT.run_bind]
    cases (e.infer Γ).run st with
    | error err => rfl
    | ok r => rfl
  rw [inferAll, hrun]
  cases (e.infer Γ).run st with
  | error err => simp [Except.map]
  | ok r => exact ⟨fun _ => ⟨r, rfl⟩, fun _ => ⟨_, rfl⟩⟩

namespace Item

variable {aliases : Aliases} {F a : String} {Ts : List (String × Ty)}

theorem Leaves.within {items : List Item} {k : Nat} (h : Leaves items aliases k)
    (hitems : ∀ item ∈ items, item.Source) : Aliases.Within k aliases := by
  obtain ⟨ds, done, hds, hfold⟩ := h
  have hstart : Aliases.Within 0 [] := fun p hp => nomatch hp
  exact Decl.within_foldlM (source_desugarAll (by simp) hitems hds) hstart hfold

/-- The statement is accepted behind the abbreviations `aliases`, when `k` names have been drawn and
`i` implementations been met, and in the scope `Γ` with the instances and names of `st`: it is
desugared, its declarations are resolved and the statements that this leaves are typed. -/
def Accepted (item : Item) (i : Nat) (aliases : Aliases) (k : Nat) (Γ : Scope Entry)
    (st : TypingState) : Prop :=
  ∃ ds table k', item.desugar i = .ok ds ∧
    (ds.foldlM Decl.step (aliases, [])).run k = .ok (table, k') ∧
    ∃ r, (Stmt.inferAll Γ st "" [] table.2.reverse).2 = .ok r

/-- What resolution leaves of an implementation. -/
theorem foldlM_impl_iff (hF : F ∉ Ty.basicNames)
    (hlookup : aliases.lookup F = some (.all none a [F] (.record none Ts))) (line : Nat)
    (dict : String) {k : Nat} {S : Ty} {fs : List (String × Expr)} {table : Aliases × List Stmt} :
    (∃ k', ([Decl.stmt (.assign line dict (.ascribe (.atLine line) (.record .blank fs)
        (.app none (.name none F) S))), .stmt (.inst line F S (.var .blank dict))].foldlM
          Decl.step (aliases, [])).run k = .ok (table, k')) ↔
      ∃ fs' k₁ S' k₂ Is k₃ S'' k₄, (Expr.resolveFields aliases [] fs).run k = .ok (fs', k₁) ∧
        (S.resolve aliases []).run k₁ = .ok (S', k₂) ∧
        ((Ty.record none Ts).subst a S').run k₂ = (.record none Is, k₃) ∧
        (S.resolve aliases []).run k₃ = .ok (S'', k₄) ∧
        table = (aliases, [.inst line F S'' (.var .blank dict), .assign line dict
          (.ascribe (.atLine line) (.record .blank fs') (.record none Is))]) := by
  constructor
  · rintro ⟨k', h⟩
    rw [List.foldlM_cons] at h
    obtain ⟨table₁, k₁, hassign, h⟩ := run_bind_eq_ok h
    rw [List.foldlM_cons] at h
    obtain ⟨table₂, hinst, rfl⟩ := run_bind_pure_eq_ok h
    obtain ⟨s, hs, rfl⟩ := run_bind_pure_eq_ok hassign
    obtain ⟨e, he, rfl⟩ := run_bind_pure_eq_ok hs
    obtain ⟨e, k₁, hrecord, h⟩ := run_bind_eq_ok he
    obtain ⟨t, ht, rfl⟩ := run_bind_pure_eq_ok h
    obtain ⟨fs', hfs, rfl⟩ := run_bind_pure_eq_ok hrecord
    obtain ⟨S', k₂, hS, hsubst⟩ := (Ty.run_resolve_instance hF hlookup).mp ht
    rw [Ty.run_subst_record] at hsubst
    obtain ⟨rfl, rfl⟩ := Prod.mk.inj hsubst
    obtain ⟨s, hs, rfl⟩ := run_bind_pure_eq_ok hinst
    obtain ⟨S'', hS', rfl⟩ := run_bind_pure_eq_ok hs
    exact ⟨fs', _, S', k₂, _, _, S'', _, hfs, hS, rfl, hS', rfl⟩
  · rintro ⟨fs', k₁, S', k₂, Is, k₃, S'', k₄, hfs, hS, hsubst, hS', rfl⟩
    have ht := (Ty.run_resolve_instance hF hlookup).mpr ⟨S', k₂, hS, hsubst⟩
    have hrecord : ((Expr.record .blank fs).resolve aliases []).run k =
        .ok (.record .blank fs', k₁) := by
      rw [Expr.resolve, run_bind_of_ok hfs]
      rfl
    have hassign : (Decl.step (aliases, []) (.stmt (.assign line dict (.ascribe (.atLine line)
        (.record .blank fs) (.app none (.name none F) S))))).run k = .ok ((aliases, [.assign line
          dict (.ascribe (.atLine line) (.record .blank fs') (.record none Is))]), k₃) := by
      rw [Decl.step, Stmt.resolve, bind_assoc, Expr.resolve, bind_assoc, run_bind_of_ok hrecord,
        bind_assoc, run_bind_of_ok ht]
      rfl
    refine ⟨k₄, ?_⟩
    rw [List.foldlM_cons, run_bind_of_ok hassign, List.foldlM_cons, Decl.step, Stmt.resolve,
      bind_assoc, bind_assoc, run_bind_of_ok hS']
    rfl

/-- The names that are drawn on the way to the instance are new, so it is the one of the textbook,
and the implementing type can be resolved once more behind it. -/
theorem replaced_instance {line k k₁ k₂ k₃ : Nat} {S S' : Ty} {members : List (Member Expr)}
    {fs' : List (String × Expr)} {Is : List (String × Ty)} {bounds : List String}
    (hsource : (impl line F S members).Source) (hw : Aliases.Within k aliases)
    (hlookup : aliases.lookup F = some (.all none a bounds (.record none Ts)))
    (hfs : ((implRecord members).resolve aliases []).run k = .ok (.record .blank fs', k₁))
    (hS : (S.resolve aliases []).run k₁ = .ok (S', k₂))
    (hIs : ((Ty.record none Ts).subst a S').run k₂ = (.record none Is, k₃)) :
    Ty.Replaced a S' (.record none Ts) (.record none Is) ∧
      ∃ S'' k₄, (S.resolve aliases []).run k₃ = .ok (S'', k₄) := by
  obtain ⟨-, htype, hmembers⟩ := hsource
  have hrecord : (implRecord members).Source := source_implRecord hmembers
  have hold : ∀ k, ∀ w ∈ S.names, OldName k w := fun k w hwS => (htype w hwS).old k
  have hle : k ≤ k₁ := by
    have hres := (implRecord members).resolved
      (F := Ty.basicNames ++ (implRecord members).lamNames) (by simp +contextual)
      (by simp +contextual) hw (fun w hw => (hrecord.types w hw).old k) hfs
    exact hres.le
  obtain ⟨hle', hwS⟩ := S.within_resolve (fun _ => id) (hw.later hle) (hold k₁) hS
  have htrait : (Ty.all none a bounds (.record none Ts)).Within k₂ Ty.basicNames :=
    (hw _ (Assoc.mem_of_lookup hlookup)).later (hle.trans hle')
  obtain ⟨ha, hTs⟩ := Ty.Within.all_iff.mp htrait
  have hfree : ∀ w ∈ S'.free, OldName k₂ w := fun w hw => hwS.old w (Ty.free_subset_names S' w hw)
  have hend : k₂ ≤ k₃ := by
    have hdrawn := Ty.substIn_drawn_le (.record none Ts) [] (some (a, S')) k₂
    change ((Ty.record none Ts).substIn [] (some (a, S'))).run k₂ = _ at hIs
    rwa [hIs] at hdrawn
  refine ⟨?_, ?_⟩
  · have hreplaced := Ty.replaced_subst (.record none Ts) ha hfree hTs.old
    rwa [hIs] at hreplaced
  · have hw₁ := hw.later hle
    obtain ⟨S'', k₄, hagain, -⟩ := S.resolve_anew hw₁ (hw₁.later (hle'.trans hend)) (hold k₁)
      (hold k₃) hS
    exact ⟨S'', k₄, hagain⟩

/-- Typing of what resolution leaves. -/
theorem infer_impl_iff {line : Nat} {Γ : Scope Entry} {st : TypingState}
    {members : List (Member Expr)} {fs fs' : List (String × Expr)} {Is : List (String × Ty)}
    (hassigned : Assigned members fs) (hlabels : fs'.map (·.1) = fs.map (·.1))
    (hIs : (Is.map (·.1)).Nodup) :
    (∃ r, ((Expr.ascribe (.atLine line) (.record .blank fs') (.record none Is)).infer Γ).run st =
      .ok r) ↔ (∀ x, x ∈ members.map (·.name) ↔ x ∈ Is.map (·.1)) ∧
        Expr.TypedInTurn Γ Is st fs' := by
  rw [Expr.infer_ascribe_record (hlabels ▸ hassigned.nodup) hIs, hlabels]
  simp only [hassigned.mem_names]

/-- An implementation of a trait in force is accepted exactly if it assigns the trait's names and
no others, and its expressions have the types of the fields with the implementing type in place of
the parameter. The fields' types are those resolved at the trait, the implementing type is resolved
behind the expressions, and of several assignments to a name the last one counts. -/
theorem impl_accepted_iff {code : String} {p : Program Item} (hp : Program.ofText code = .ok p)
    {pre mid post : List Item} {l line : Nat} {F a : String} {fields : List (Member Ty)} {S : Ty}
    {members : List (Member Expr)} (hsplit : p.stmts = pre ++ .trait l F [a] fields ::
      (mid ++ .impl line F S members :: post))
    (hmid : ∀ item ∈ mid, item.defines ≠ some F) (hF : F ∉ Ty.basicNames) {aliases : Aliases}
    {k : Nat} (hleaves : Leaves (pre ++ .trait l F [a] fields :: mid) aliases k) :
    ∃ aliases₀ k₀ k₁ Ts fs, Leaves pre aliases₀ k₀ ∧
      (Ty.resolveFields aliases₀ [a] (written fields)).run k₀ = .ok (Ts, k₁) ∧
      Assigned members fs ∧ ∀ i Γ st, (impl line F S members).Accepted i aliases k Γ st ↔
        (∀ x, x ∈ members.map (·.name) ↔ x ∈ fields.map (·.name)) ∧
        ∃ fs' k₁ S' k₂ Is k₃, (Expr.resolveFields aliases [] fs).run k = .ok (fs', k₁) ∧
          (S.resolve aliases []).run k₁ = .ok (S', k₂) ∧
          ((Ty.record none Ts).subst a S').run k₂ = (.record none Is, k₃) ∧
          Ty.Replaced a S' (.record none Ts) (.record none Is) ∧
          Expr.TypedInTurn Γ Is st fs' := by
  obtain ⟨hnodup, aliases₀, k₀, k₁, Ts, hpre, hTs, hlookup⟩ := lookup_trait hleaves hmid
  have hassigned := Assigned.of_foldl members
  refine ⟨aliases₀, k₀, k₁, Ts, _, hpre, hTs, hassigned, ?_⟩
  intro i Γ st
  have hsource : ∀ item ∈ p.stmts, item.Source := Program.source_ofText hp
  have himpl : (impl line F S members).Source := hsource _ (by simp [hsplit])
  have hw : Aliases.Within k aliases := by
    apply hleaves.within
    intro item hitem
    apply hsource
    rw [hsplit]
    simp only [List.mem_append, List.mem_cons] at hitem ⊢
    tauto
  have hIs {S' : Ty} {Is : List (String × Ty)} {k₂ k₃ : Nat}
      (hsubst : ((Ty.record none Ts).subst a S').run k₂ = (.record none Is, k₃)) :
      Is.map (·.1) = fields.map (·.name) := by
    rw [Ty.run_subst_record] at hsubst
    obtain ⟨heq, -⟩ := Prod.mk.inj hsubst
    obtain ⟨-, rfl⟩ := Ty.record.inj heq
    rw [Ty.labels_substFields, Ty.labels_resolveFields hTs, written, List.map_map]
    rfl
  have hrecord {fs' : List (String × Expr)} {k₁ : Nat} (hfs : (Expr.resolveFields aliases []
      (members.foldl (fun fs m => Assoc.insert m.name m.item fs) [])).run k = .ok (fs', k₁)) :
      ((implRecord members).resolve aliases []).run k = .ok (.record .blank fs', k₁) := by
    rw [implRecord, Expr.resolve, run_bind_of_ok hfs]
    rfl
  constructor
  · rintro ⟨ds, table, k', hds, hfold, hok⟩
    obtain rfl := Except.ok.inj hds
    obtain ⟨fs', k₁, S', k₂, Is, k₃, S'', k₄, hfs, hS, hsubst, -, rfl⟩ :=
      (foldlM_impl_iff hF hlookup line (dictName F i)).mp ⟨k', hfold⟩
    have hlabels := hIs hsubst
    obtain ⟨hnames, hturn⟩ := (infer_impl_iff hassigned (Expr.labels_resolveFields hfs)
      (hlabels ▸ hnodup)).mp (Stmt.inferAll_impl.mp hok)
    obtain ⟨hreplaced, -⟩ := replaced_instance himpl hw hlookup (hrecord hfs) hS hsubst
    exact ⟨hlabels ▸ hnames, fs', k₁, S', k₂, Is, k₃, hfs, hS, hsubst, hreplaced, hturn⟩
  · rintro ⟨hnames, fs', k₁, S', k₂, Is, k₃, hfs, hS, hsubst, -, hturn⟩
    have hlabels := hIs hsubst
    obtain ⟨-, S'', k₄, hagain⟩ := replaced_instance himpl hw hlookup (hrecord hfs) hS hsubst
    obtain ⟨k', hfold⟩ := (foldlM_impl_iff hF hlookup line (dictName F i)).mpr
      ⟨fs', k₁, S', k₂, Is, k₃, S'', k₄, hfs, hS, hsubst, hagain, rfl⟩
    refine ⟨_, _, k', rfl, hfold, Stmt.inferAll_impl.mpr ?_⟩
    exact (infer_impl_iff hassigned (Expr.labels_resolveFields hfs) (hlabels ▸ hnodup)).mpr
      ⟨hlabels ▸ hnames, hturn⟩

/-- A trait with two fields. -/
def showTrait : Item :=
  .trait 1 "Show" ["a"]
    [⟨1, "show", .arrow (some 1) (.name (some 1) "a") (.name (some 1) "String")⟩,
      ⟨1, "name", .name (some 1) "String"⟩]

/-- The fields are assigned in another order than the trait has them in. -/
def swappedSample : String :=
  "trait Show a \x7bshow: a -> String; name: String;\x7d\n" ++
    "impl Show for Int \x7bname = \"Int\"; show = int_to_string;\x7d\n"

def swappedMembers : List (Member Expr) :=
  [⟨2, "name", .val ⟨some 2, none⟩ (.text "Int")⟩,
    ⟨2, "show", .var ⟨some 2, none⟩ "int_to_string"⟩]

/-- One field is assigned twice, the first time with an expression of another type. -/
def repeatedSample : String :=
  "trait Show a \x7bshow: a -> String; name: String;\x7d\n" ++
    "impl Show for Int \x7bshow = 1; name = \"Int\"; show = int_to_string;\x7d\n"

def repeatedMembers : List (Member Expr) :=
  ⟨2, "show", .val ⟨some 2, none⟩ (.int 1)⟩ :: swappedMembers

/-- Runs the stages on an implementation of the trait above for integers. -/
def tried (members : List (Member Expr)) : Bool :=
  (desugarAll 0 [] [showTrait]).toOption.any fun ds =>
    ((ds.foldlM Decl.step ([], [])).run 0).toOption.any fun before => before.2 = 0 &&
      ((impl 2 "Show" (.name (some 2) "Int") members).desugar 0).toOption.any fun new =>
        ((new.foldlM Decl.step (before.1.1, [])).run 0).toOption.any fun r =>
          (Stmt.inferAll Scope.builtins {} "" [] r.1.2.reverse).2.toOption.any fun _ => true

theorem accepted_of_tried {members : List (Member Expr)} (h : tried members = true) :
    ∃ aliases, Leaves [showTrait] aliases 0 ∧
      (impl 2 "Show" (.name (some 2) "Int") members).Accepted 0 aliases 0 Scope.builtins {} := by
  obtain ⟨ds, hds, h⟩ := exists_of_any_toOption h
  obtain ⟨⟨⟨aliases, done⟩, k⟩, hfold, h⟩ := exists_of_any_toOption h
  obtain ⟨hk, h⟩ := Bool.and_eq_true_iff.mp h
  obtain rfl : k = 0 := of_decide_eq_true hk
  obtain ⟨new, hnew, h⟩ := exists_of_any_toOption h
  obtain ⟨⟨table, k'⟩, hstep, h⟩ := exists_of_any_toOption h
  obtain ⟨r, hr, -⟩ := exists_of_any_toOption h
  exact ⟨aliases, ⟨ds, done, hds, hfold⟩, new, table, k', hnew, hstep, r, hr⟩

theorem impl_accepted_swapped : ∃ aliases, Leaves [showTrait] aliases 0 ∧
    (impl 2 "Show" (.name (some 2) "Int") swappedMembers).Accepted 0 aliases 0 Scope.builtins {} ∧
    ∃ fs' S' Ts Is, Ty.Replaced "a" S' (.record none Ts) (.record none Is) ∧
      Expr.TypedInTurn Scope.builtins Is {} fs' := by
  have hp : Program.ofText swappedSample =
      .ok ⟨1, [showTrait, impl 2 "Show" (.name (some 2) "Int") swappedMembers]⟩ := by cbv
  have hsplit : [showTrait, impl 2 "Show" (.name (some 2) "Int") swappedMembers] =
      [] ++ showTrait :: ([] ++ impl 2 "Show" (.name (some 2) "Int") swappedMembers :: []) := rfl
  have htried : tried swappedMembers = true := by decide +kernel
  obtain ⟨aliases, hleaves, haccepted⟩ := accepted_of_tried htried
  obtain ⟨aliases₀, k₀, k₁, Ts, fs, -, -, -, hiff⟩ :=
    impl_accepted_iff hp hsplit (by simp) (by decide) hleaves
  obtain ⟨-, fs', -, S', -, Is, -, -, -, -, hreplaced, hturn⟩ := (hiff 0 _ _).mp haccepted
  exact ⟨aliases, hleaves, haccepted, fs', S', Ts, Is, hreplaced, hturn⟩

/-- The block is accepted although it assigns a field twice, and although the first expression has
not the type of the field. -/
theorem impl_accepted_repeated : ∃ aliases, Leaves [showTrait] aliases 0 ∧
    Program.ofText repeatedSample =
      .ok ⟨1, [showTrait, impl 2 "Show" (.name (some 2) "Int") repeatedMembers]⟩ ∧
    repeatedMembers.map (·.name) = ["show", "name", "show"] ∧
    (impl 2 "Show" (.name (some 2) "Int") repeatedMembers).Accepted 0 aliases 0
      Scope.builtins {} := by
  have htried : tried repeatedMembers = true := by decide +kernel
  obtain ⟨aliases, hleaves, haccepted⟩ := accepted_of_tried htried
  exact ⟨aliases, hleaves, by cbv, rfl, haccepted⟩

end Item

end TraitCalculus
