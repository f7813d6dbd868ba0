import TraitCalculus.Proofs.ReadingWords
import TraitCalculus.Proofs.Walks
import TraitCalculus.Ty.Parser

/-! Types as they are written. The relation between a type and its words follows the levels of the
parser, from whole types down to those that stand alone; each level reads what is written for it. -/
namespace TraitCalculus

open TraitCalculus.Parser

/-- A phrase in parentheses. -/
def parens (ws : List Word) : List Word := (.lparen, "(") :: ws ++ [(.rparen, ")")]

namespace Ty

mutual

/-- A type without the lines it was read at. -/
def unlined : Ty → Ty
  | name _ x => name none x
  | all _ x bounds body => all none x bounds body.unlined
  | arrow _ dom cod => arrow none dom.unlined cod.unlined
  | app _ fn arg => app none fn.unlined arg.unlined
  | list _ elem => list none elem.unlined
  | emptyList => emptyList
  | record _ fields => record none (unlinedFields fields)

def unlinedFields : List (String × Ty) → List (String × Ty)
  | [] => []
  | (label, t) :: fields => (label, t.unlined) :: unlinedFields fields

end

theorem unlinedFields_eq (fs : List (String × Ty)) :
    unlinedFields fs = fs.map fun f => (f.1, f.2.unlined) :=
  walk_eq_map rfl (fun _ _ => rfl) fs

/-- The fields of a record type, each a label and a type with its words, up to the brace. -/
def fieldWords (fs : List ((String × Ty) × List Word)) : List Word :=
  listed (.rbrace, "\x7d") (fs.map fun f => (.ident, f.1.1) :: (.colon, ":") :: f.2)

/-- The type is written with these words where the parser's level is at least `k`: whole types
have level 0, functions 1, applications 2 and types that stand alone 3. -/
inductive Written : Nat → Ty → List Word → Prop
  | name (x : String) : Written 3 (name none x) [(.ident, x)]
  | parens {t : Ty} {ws : List Word} : Written 0 t ws → Written 3 t (parens ws)
  | list {t : Ty} {ws : List Word} :
    Written 0 t ws → Written 3 (list none t) ((.lbracket, "[") :: ws ++ [(.rbracket, "]")])
  | record {fs : List ((String × Ty) × List Word)} (hlabels : (fs.map (·.1.1)).Nodup) :
    (∀ f ∈ fs, Written 0 f.1.2 f.2) →
      Written 3 (record none (fs.map (·.1))) ((.lbrace, "\x7b") :: fieldWords fs)
  | app {f a : Ty} {ws ws' : List Word} :
    Written 2 f ws → Written 3 a ws' → Written 2 (app none f a) (ws ++ ws')
  | arrow {d c : Ty} {ws ws' : List Word} :
    Written 2 d ws → Written 1 c ws' → Written 1 (arrow none d c) (ws ++ (.arrow, "->") :: ws')
  | all {x : String} {bs : List String} {t : Ty} {ws : List Word} :
    Written 0 t ws →
      Written 0 (all none x bs t) ((.forallWord, "forall") :: (.ident, x) :: boundWords bs ++ ws)
  | loosen {k : Nat} {t : Ty} {ws : List Word} : Written (k + 1) t ws → Written k t ws

/-- Only a quantifier is no start of a function. -/
theorem Written.exists_head {k : Nat} {t : Ty} {ws : List Word} (h : Written k t ws) :
    ∃ w ws', ws = w :: ws' ∧ (w.1 ∈ startKinds ∨ k = 0 ∧ w.1 = .forallWord) := by
  induction h with
  | name x => exact ⟨_, _, rfl, .inl (by simp [startKinds])⟩
  | parens _ _ | list _ _ | record _ _ _ => exact ⟨_, _, rfl, .inl (by decide)⟩
  | app _ _ ihf _ | arrow _ _ ihf _ =>
    obtain ⟨w, ws, rfl, hw | ⟨h, -⟩⟩ := ihf
    · exact ⟨w, _, rfl, .inl hw⟩
    · cases h
  | all _ _ => exact ⟨_, _, rfl, .inr ⟨rfl, rfl⟩⟩
  | loosen _ ih =>
    obtain ⟨w, ws, rfl, hw | ⟨h, -⟩⟩ := ih
    · exact ⟨w, ws, rfl, .inl hw⟩
    · cases h

/-- What would continue a type. -/
def continuing : List Kind := .arrow :: startKinds

/-- How the parser of each level reads the words. Behind an application that is not finished it
goes on with arguments. -/
def ReadAt (k : Nat) (t : Ty) (ws : List Word) : Prop :=
  ∀ n, match k with
    | 0 => Takes n continuing (step (parser n) n) ws (·.unlined = t)
    | 1 => ∀ m ≤ n, Takes m continuing (function (parser n) n m) ws (·.unlined = t)
    | 2 => Leads n [] (applied (parser n) n) ws fun q => ∃ line t' m,
        t'.unlined = t ∧ n - ws.length ≤ m ∧ q = arguments (parser n) n line t' m
    | 3 => Takes n [] (unapplied (parser n) n) ws (·.unlined = t)
    | _ => False

variable {t f a d c : Ty} {ws ws' : List Word}

/-- Inner types have one unit of fuel less. -/
theorem ReadAt.parser (h : ReadAt 0 t ws) (n : Nat) :
    Takes (n - 1) continuing (parser n) ws (·.unlined = t) := by
  cases n with
  | zero => exact leads_of_eq_zero (by omega)
  | succ n => exact h n

theorem arguments_succ (ty : Parser Ty) (bound line : Nat) (fn : Ty) (n : Nat) :
    arguments ty bound line fn (n + 1) = (do
      if (← kind) ∈ startKinds then
        let arg ← unapplied ty bound
        arguments ty bound line (app line fn arg) n
      else return fn) := rfl

theorem function_succ (ty : Parser Ty) (bound n : Nat) :
    function ty bound (n + 1) = (do
      let t ← peek
      let dom ← applied ty bound
      if (← kind) = .arrow then
        let _ ← next
        let cod ← function ty bound n
        return arrow t.line dom cod
      else return dom) := rfl

theorem ReadAt.parens (h : ReadAt 0 t ws) : ReadAt 3 t (parens ws) := by
  intro n
  refine Leads.peek fun u hu => ?_
  rw [Token.kind_of_word hu]
  refine Leads.next fun _ _ => ?_
  refine Takes.bind (h.parser n) (ends_cons (by decide)) fun t' ht' => ?_
  exact Leads.expect fun _ _ => takes_pure ht'

theorem ReadAt.list (h : ReadAt 0 t ws) :
    ReadAt 3 (list none t) ((.lbracket, "[") :: ws ++ [(.rbracket, "]")]) := by
  intro n
  refine Leads.peek fun u hu => ?_
  rw [Token.kind_of_word hu]
  refine Leads.next fun _ _ => ?_
  refine Takes.bind (h.parser n) (ends_cons (by decide)) fun t' ht' => ?_
  exact Leads.expect fun _ _ => takes_pure (congrArg (Ty.list none) ht')

theorem readAt_name (x : String) : ReadAt 3 (name none x) [(.ident, x)] := by
  intro n
  refine Leads.peek fun u hu => ?_
  rw [Token.kind_of_word hu]
  refine Leads.next fun _ _ => takes_pure ?_
  exact congrArg (name none) (Token.text_of_word hu)

theorem readAt_record {fs : List ((String × Ty) × List Word)} (hlabels : (fs.map (·.1.1)).Nodup)
    (h : ∀ f ∈ fs, ReadAt 0 f.1.2 f.2) :
    ReadAt 3 (record none (fs.map (·.1))) ((.lbrace, "\x7b") :: fieldWords fs) := by
  intro n
  refine Leads.peek fun u hu => ?_
  rw [Token.kind_of_word hu]
  refine Leads.next fun _ _ => ?_
  rw [fieldList_eq]
  refine Takes.map (takes_labelled (by decide) (by decide) hlabels (by omega)
    fun f hf => (h f hf).parser n) ?_
  intro gs hgs
  exact congrArg (record none) ((unlinedFields_eq gs).trans hgs)

theorem ReadAt.app (hf : ReadAt 2 f ws) (ha : ReadAt 3 a ws') (hhead : ∃ w vs, ws' = w :: vs ∧
    w.1 ∈ startKinds) : ReadAt 2 (app none f a) (ws ++ ws') := by
  intro n
  obtain ⟨w, vs, rfl, hw⟩ := hhead
  refine Leads.trans (hf n) (ends_cons List.not_mem_nil) ?_
  rintro _ ⟨line, f', m, hf', hm, rfl⟩
  cases m with
  | zero => exact leads_of_eq_zero (by omega)
  | succ m =>
    rw [arguments_succ]
    refine Leads.kind ?_
    rw [if_pos hw]
    have harg : Takes (n - ws.length) [] (unapplied (Ty.parser n) n) (w :: vs) (·.unlined = a) :=
      Leads.mono (ha n) (by omega)
    refine harg.leads fun a' ha' => ⟨line, _, m, ?_, ?_, rfl⟩
    · rw [unlined, hf', ha']
    · simp only [List.length_append, List.length_cons]
      omega

/-- An application ends where no argument follows. -/
theorem ReadAt.applied (h : ReadAt 2 t ws) (n : Nat) :
    Takes n startKinds (applied (Ty.parser n) n) ws (·.unlined = t) := by
  refine Leads.stop (h n) (List.nil_subset _) ?_
  rintro _ ⟨line, t', m, ht', hm, rfl⟩
  cases m with
  | zero => exact leads_of_eq_zero (by omega)
  | succ m =>
    rw [arguments_succ]
    refine leads_kind_nil fun k hk => ?_
    rw [if_neg hk]
    exact takes_pure ht'

theorem ReadAt.arrow (hd : ReadAt 2 d ws) (hc : ReadAt 1 c ws')
    (hhead : ∃ w vs, ws = w :: vs) : ReadAt 1 (arrow none d c) (ws ++ (.arrow, "->") :: ws') := by
  intro n m hm
  cases m with
  | zero => exact leads_of_eq_zero (by omega)
  | succ m =>
    obtain ⟨w, vs, rfl⟩ := hhead
    rw [function_succ]
    refine Leads.peek fun u hu => ?_
    have hdom : Takes (m + 1) startKinds (Ty.applied (Ty.parser n) n) (w :: vs) (·.unlined = d) :=
      Leads.mono (hd.applied n) hm
    refine Takes.bind hdom (ends_cons (by decide)) fun d' hd' => ?_
    refine Leads.kind ?_
    rw [if_pos rfl]
    refine Leads.next fun _ _ => ?_
    have hcod : Takes m continuing (function (Ty.parser n) n m) ws' (·.unlined = c) :=
      hc n m (by omega)
    refine Takes.map (Leads.mono hcod (by simp only [List.length_cons]; omega)) fun c' hc' => ?_
    rw [unlined, hd', hc']

theorem ReadAt.function (h : ReadAt 2 t ws) (hhead : ∃ w vs, ws = w :: vs) : ReadAt 1 t ws := by
  intro n m hm
  cases m with
  | zero => exact leads_of_eq_zero (by omega)
  | succ m =>
    obtain ⟨w, vs, rfl⟩ := hhead
    rw [function_succ]
    refine Leads.peek fun u hu => ?_
    have hdom : Takes (m + 1) startKinds (Ty.applied (Ty.parser n) n) (w :: vs) (·.unlined = t) :=
      Leads.mono (h.applied n) hm
    refine Takes.stop hdom (List.subset_cons_self _ _) fun d' hd' => ?_
    refine leads_kind_nil fun k hk => ?_
    rw [if_neg (by rintro rfl; exact hk List.mem_cons_self)]
    exact takes_pure hd'

theorem ReadAt.all {x : String} {bs : List String} (h : ReadAt 0 t ws) :
    ReadAt 0 (all none x bs t) ((.forallWord, "forall") :: (.ident, x) :: boundWords bs ++ ws) := by
  intro n
  refine Leads.peek fun u hu => ?_
  rw [if_pos (show u.kind = .forallWord from Token.kind_of_word hu)]
  refine Leads.next fun _ _ => Leads.ident ?_
  refine (takes_bounds bs (by omega)).then ?_
  rintro _ rfl
  refine Takes.map (Leads.mono (h.parser n) (by omega)) fun t' ht' => ?_
  rw [unlined, ht']

theorem ReadAt.whole (h : ReadAt 1 t ws) (hhead : ∃ w vs, ws = w :: vs ∧ w.1 ≠ .forallWord) :
    ReadAt 0 t ws := by
  intro n
  obtain ⟨w, vs, rfl, hw⟩ := hhead
  refine Leads.peek fun u hu => ?_
  rw [if_neg (by rw [← hu] at hw; exact hw)]
  exact h n n le_rfl

theorem ReadAt.lone (h : ReadAt 3 t ws) (hhead : ∃ w vs, ws = w :: vs) : ReadAt 2 t ws := by
  intro n
  obtain ⟨w, vs, rfl⟩ := hhead
  refine Leads.peek fun u hu => ?_
  exact (h n).leads fun t' ht' => ⟨u.line, t', n, ht', by omega, rfl⟩

/-- Every level of the parser reads what is written for it. -/
theorem Written.readAt {k : Nat} (h : Written k t ws) : ReadAt k t ws := by
  induction h with
  | name x => exact readAt_name x
  | parens _ ih => exact ih.parens
  | list _ ih => exact ih.list
  | record hlabels _ ih => exact readAt_record hlabels ih
  | app _ ha ihf iha =>
    obtain ⟨w, vs, rfl, hw | ⟨h, -⟩⟩ := ha.exists_head
    · exact ihf.app iha ⟨w, vs, rfl, hw⟩
    · cases h
  | arrow hd _ ihd ihc =>
    obtain ⟨w, vs, rfl, -⟩ := hd.exists_head
    exact ihd.arrow ihc ⟨w, vs, rfl⟩
  | all _ ih => exact ih.all
  | @loosen k t ws h ih =>
    obtain ⟨w, vs, rfl, hw⟩ := h.exists_head
    match k, ih with
    | 0, ih =>
      refine ih.whole ⟨w, vs, rfl, ?_⟩
      rcases hw with hw | ⟨h, -⟩
      · rintro hk
        rw [hk] at hw
        exact absurd hw (by decide)
      · cases h
    | 1, ih => exact ih.function ⟨w, vs, rfl⟩
    | 2, ih => exact ih.lone ⟨w, vs, rfl⟩
    | _ + 3, ih => exact (ih 0).elim

end Ty

end TraitCalculus
