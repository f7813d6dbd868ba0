import TraitCalculus.Proofs.RoundTrips

/-! Printed types are read back. The printer puts no parentheses around an application that is an
argument, so every chain of applications comes back grouped to the left; nothing else is lost. -/
namespace TraitCalculus.Ty

open TraitCalculus.Parser

section

variable {t : Ty} {ts rest : List Token}

theorem reading_of_parse (h : parse ts = .ok (t, rest)) : Reading 0 t ts rest :=
  (parser_after (Token.kind_finishOf ts) _ ts t rest h).1

/-- What is written is read, up to a token that does not continue it. -/
theorem Written.parse {ws : List Word} (h : Written 0 t ws) (hts : ts.map Token.word = ws)
    (hrest : (rest.headD (Token.finishOf (ts ++ rest))).kind ∉ continuing) :
    ∃ t', parse (ts ++ rest) = .ok (t', rest) ∧ t'.unlined = t := by
  obtain ⟨_, ⟨t', ht', rfl⟩, hrun⟩ := h.readAt.parser (fuelFor (ts ++ rest))
    (Token.finishOf (ts ++ rest)) ts rest hts (by unfold fuelFor; omega) hrest
  exact ⟨t', hrun, ht'⟩

/-- The printed form is cut into its words and blanks, and none of the words is a text. -/
theorem exists_ofText_render (hwords : SpelledAll t.script) :
    ∃ ts, Token.ofText t.render = .ok ts ∧ ts.map Token.word = wordsOf t.script := by
  have hcuts := (phrase_script hwords).cuts [] closes_nil trivial
  rw [List.append_nil] at hcuts
  refine exists_ofText_words (textOf_script t) hwords hcuts ?_
  rw [forall_quotable_iff, textsOf_script]
  exact nofun

theorem exists_parse_regrouped (hform : t.hasForm) (hwords : SpelledAll t.script) :
    ∃ ts t', Token.ofText t.render = .ok ts ∧ parse ts = .ok (t', []) ∧
      t'.unlined = t.regrouped := by
  obtain ⟨ts, hlex, hts⟩ := exists_ofText_render hwords
  have hwritten : Written 0 t.regrouped (wordsOf t.script) :=
    (regroups hform).1.weaken (Nat.zero_le _)
  have hend : (([] : List Token).headD (Token.finishOf (ts ++ []))).kind ∉ continuing := by
    rw [List.headD_nil, Token.kind_finishOf]
    decide
  obtain ⟨t', hparse, ht'⟩ := hwritten.parse hts hend
  rw [List.append_nil] at hparse
  exact ⟨ts, t', hlex, hparse, ht'⟩

end

theorem lost_foldl_app {ts : List Ty} (h : ∀ t ∈ ts, t.level ≠ 2 ∧ t.lost = 0) {g : Ty}
    (hg : g.lost = 0) : (ts.foldl (app none) g).lost = 0 := by
  induction ts generalizing g with
  | nil => exact hg
  | cons t ts ih =>
    obtain ⟨⟨hlevel, hlost⟩, hts⟩ := List.forall_mem_cons.mp h
    refine ih hts ?_
    rw [lost, hg, hlost, if_neg hlevel]

theorem lost_grouped {ts : List Ty} (h : ∀ t ∈ ts, t.level ≠ 2 ∧ t.lost = 0) :
    (grouped ts).lost = 0 := by
  cases ts with
  | nil => rfl
  | cons t ts =>
    obtain ⟨⟨-, hlost⟩, hts⟩ := List.forall_mem_cons.mp h
    exact lost_foldl_app hts hlost

/-- The members of a chain are no applications, and lost nothing inside. -/
theorem lost_chain (t : Ty) : ∀ u ∈ t.chain, u.level ≠ 2 ∧ u.lost = 0 := by
  induction t using Ty.induction with
  | name line x => simp [chain, level, lost]
  | all line x bs body ih | list line t ih => simp [chain, level, lost, lost_grouped ih]
  | arrow line d c ihd ihc => simp [chain, level, lost, lost_grouped ihd, lost_grouped ihc]
  | app line f a ihf iha => exact List.forall_mem_append.mpr ⟨ihf, iha⟩
  | emptyList => simp [chain, level, lost]
  | record line fs ih =>
    have hfields : lostFields (chainFields fs) = 0 := by
      rw [lostFields_eq_zero, chainFields_eq, List.forall_mem_map]
      exact fun f hf => lost_grouped (ih f hf)
    simp [chain, level, lost, hfields]

/-- Grouping to the left changes just the types where an argument is an application. -/
theorem regrouped_eq_unlined_iff (t : Ty) : t.regrouped = t.unlined ↔ t.lost = 0 := by
  refine ⟨fun h => ?_, regrouped_of_lost⟩
  -- lines are not counted among what is lost, and grouping to the left leaves nothing to lose
  rw [← t.tallies_unlined.2, ← h]
  exact lost_grouped t.lost_chain

/-- A type that was read is printed in a form that is read again, to the last token, as the type with
every chain of applications grouped to the left. It is read as the type itself, up to lines, exactly
if no application in it has an application as its argument. -/
theorem parse_render_regrouped {ts rest : List Token} {t : Ty}
    (hts : ∀ u ∈ ts, ∃ code tokens, Token.ofText code = .ok tokens ∧ u ∈ tokens)
    (h : parse ts = .ok (t, rest)) :
    ∃ ts' t', Token.ofText t.render = .ok ts' ∧ parse ts' = .ok (t', []) ∧
      t'.unlined = t.regrouped ∧ (t'.unlined = t.unlined ↔ t.lost = 0) := by
  have hlexed : LexedAll ts := by
    intro u hu
    obtain ⟨code, tokens, hlex, hmem⟩ := hts u hu
    exact Token.lexed_ofText hlex u hmem
  obtain ⟨⟨hform, hwords⟩, -⟩ := (reading_of_parse h).spelled hlexed
  obtain ⟨ts', t', hlex, hparse, ht'⟩ := exists_parse_regrouped hform hwords
  refine ⟨ts', t', hlex, hparse, ht', ?_⟩
  rw [ht']
  exact t.regrouped_eq_unlined_iff

/-- Chains in a bounded quantifier, a function, a list and a record. -/
def chainsSample : String :=
  "forall a impl Show + Eq. M (N a) -> [P (Q (R b))] -> \x7bl: F (c -> c) (G d), r: forall e. e\x7d"

theorem parse_render_regrouped_chainsSample : ∃ ts t ts' t',
    Token.ofText chainsSample = .ok ts ∧ parse ts = .ok (t, []) ∧ t.lost = 4 ∧
    Token.ofText t.render = .ok ts' ∧ parse ts' = .ok (t', []) ∧ t'.unlined = t.regrouped ∧
    t'.unlined ≠ t.unlined := by
  obtain ⟨ts, t, hlex, hparse, hlost⟩ : ∃ ts t, Token.ofText chainsSample = .ok ts ∧
      parse ts = .ok (t, []) ∧ t.lost = 4 := ⟨_, _, by cbv, by cbv, by decide⟩
  obtain ⟨ts', t', hlex', hparse', ht', hsame⟩ :=
    parse_render_regrouped (fun u hu => ⟨chainsSample, ts, hlex, hu⟩) hparse
  refine ⟨ts, t, ts', t', hlex, hparse, hlost, hlex', hparse', ht', ?_⟩
  rw [ne_eq, hsame, hlost]
  decide

end TraitCalculus.Ty
