import TraitCalculus.Proofs.StatementSequences

/-! Semicolons between statements. Any number of them may stand in front of a statement, but none
behind the last one: there a statement is asked for, and the tokens have come to their end. -/
namespace TraitCalculus.Program

open TraitCalculus.Parser

/-- The second list is the first with semicolons put in where a statement may start, and with
`last` behind the last statement. Between such places stand whole statements. -/
inductive Padded (last : List Token) : List Token → List Token → Prop
  | finish : Padded last [] last
  | inserted {t : Token} {ts us : List Token} (ht : t.kind = .semicolon) (hts : ts ≠ [])
      (h : Padded last ts us) : Padded last ts (t :: us)
  | kept {t : Token} {ts us : List Token} (ht : t.kind = .semicolon) (h : Padded last ts us) :
      Padded last (t :: ts) (t :: us)
  | statements {pre ts us : List Token} {p : Program Item} (hpre : parse pre = .ok p)
      (h : Padded last ts us) : Padded last (pre ++ ts) (pre ++ us)

theorem Padded.append {ts : List Token} {p : Program Item} (h : parse ts = .ok p)
    (last : List Token) : Padded last ts (ts ++ last) := by
  simpa using Padded.statements h .finish

theorem Padded.ne_nil {last ts us : List Token} (h : Padded last ts us) (hts : ts ≠ []) :
    us ≠ [] := by
  induction h with
  | finish => exact absurd rfl hts
  | inserted | kept => exact List.cons_ne_nil _ _
  | statements _ _ ih =>
    intro hus
    obtain ⟨rfl, rfl⟩ := List.append_eq_nil_iff.mp hus
    exact ih hts rfl

/-- A statement was asked for behind the last token. -/
def endedEarly (tokens : List Token) : ParseError :=
  .malformed ⟨some (Token.finishOf tokens).line, .expected Expr.startKinds "EOF"⟩

/-- The statements that are read from tokens. -/
def stmtsOf (tokens : List Token) : Except ParseError (List Item) := (parse tokens).map (·.stmts)

theorem stmtsOf_append {ts : List Token} {p : Program Item} (h : parse ts = .ok p)
    (us : List Token) : stmtsOf (ts ++ us) = (stmtsOf us).map (p.stmts ++ ·) := by
  rw [stmtsOf, stmtsOf, parse_append_eq h]
  cases parse us <;> rfl

/-- A semicolon in front of other tokens is skipped. -/
theorem stmtsOf_cons {t : Token} (ht : t.kind = .semicolon) {us : List Token} (hus : us ≠ []) :
    stmtsOf (t :: us) = stmtsOf us := by
  have hfinish : Token.finishOf (t :: us) = Token.finishOf us := by
    rw [← List.singleton_append, Token.finishOf_append hus]
  have hfuel : us.length + 2 ≤ us.length + 3 := Nat.le_succ _
  have hitems : itemList (us.length + 3) [] (us.length + 3) (Token.finishOf us) (t :: us) =
      itemList (us.length + 3) [] (us.length + 3) (Token.finishOf us) us := by
    rw [itemList_succ, itemList_succ, List.dropWhile_cons_of_pos (by simpa using ht),
      if_neg (by simp), if_neg (by simpa using hus)]
  unfold stmtsOf
  rw [parse_eq hfuel hfuel, parse_eq (le_refl (us.length + 3)) (le_refl (us.length + 3)), hfinish,
    hitems]
  cases itemList (us.length + 3) [] (us.length + 3) (Token.finishOf us) us <;> rfl

/-- Semicolons alone are no program. -/
theorem parse_semicolons {last : List Token} (h : ∀ t ∈ last, t.kind = .semicolon)
    (hne : last ≠ []) : parse last = .error (endedEarly last) := by
  have hdrop : last.dropWhile (·.kind = .semicolon) = [] :=
    List.dropWhile_eq_nil_iff.mpr fun t ht => by simpa using h t ht
  have hitem : Item.parser (last.length + 2) (Token.finishOf last)
      (last.dropWhile (·.kind = .semicolon)) = .error (endedEarly last) := by
    rw [hdrop, endedEarly]
    unfold Token.finishOf
    cases last.getLast? <;> rfl
  rw [parse_eq le_rfl le_rfl, itemList_of_error hne hitem]
  rfl

theorem stmtsOf_padded {last ts us : List Token} {items : List Item} (h : stmtsOf ts = .ok items)
    (hlast : ∀ t ∈ last, t.kind = .semicolon) (hpad : Padded last ts us) :
    stmtsOf us = if last = [] then .ok items else .error (endedEarly last) := by
  induction hpad generalizing items with
  | finish =>
    split_ifs with hnil
    · rw [hnil, h]
    · rw [stmtsOf, parse_semicolons hlast hnil]
      rfl
  | inserted ht hts hpad ih => rw [stmtsOf_cons ht (hpad.ne_nil hts), ih h]
  | @kept t ts us ht hpad ih =>
    rcases eq_or_ne ts [] with rfl | hts
    · rw [stmtsOf, parse_semicolons (by simpa using ht) (List.cons_ne_nil t [])] at h
      cases h
    · rw [stmtsOf_cons ht hts] at h
      rw [stmtsOf_cons ht (hpad.ne_nil hts), ih h]
  | @statements pre ts us q hpre hpad ih =>
    rw [stmtsOf_append hpre] at h ⊢
    cases hts : stmtsOf ts with
    | error e =>
      rw [hts] at h
      cases h
    | ok items' =>
      rw [hts] at h
      rw [ih hts, ← h]
      split_ifs <;> rfl

/-- Semicolons between statements, and in front of the first, change no statement: the tokens are
read as before exactly if none stands behind the last statement. Otherwise a statement is missed at
the end. -/
theorem parse_padded_iff {last ts us : List Token} {p : Program Item} (h : parse ts = .ok p)
    (hlast : ∀ t ∈ last, t.kind = .semicolon) (hpad : Padded last ts us) :
    ((∃ line, parse us = .ok ⟨line, p.stmts⟩) ↔ last = []) ∧
      (last ≠ [] → parse us = .error (endedEarly last)) := by
  have hts : stmtsOf ts = .ok p.stmts := by rw [stmtsOf, h]; rfl
  have hstmts := stmtsOf_padded hts hlast hpad
  unfold stmtsOf at hstmts
  cases hus : parse us with
  | error e =>
    rw [hus] at hstmts
    split_ifs at hstmts with hnil
    · cases hstmts
    · exact ⟨⟨nofun, fun h => absurd h hnil⟩, fun _ => congrArg _ (Except.error.inj hstmts)⟩
  | ok q =>
    rw [hus] at hstmts
    split_ifs at hstmts with hnil
    · refine ⟨⟨fun _ => hnil, fun _ => ⟨q.line, ?_⟩⟩, fun h => absurd hnil h⟩
      rw [← Except.ok.inj hstmts]
    · cases hstmts

/-- A semicolon on a line of its own. -/
def semicolonAt (line : Nat) : Token := ⟨.semicolon, ";", line, 1⟩

theorem parse_padded_everywhere : ∃ p, parse (assignOne ++ callBehind) = .ok p ∧
    p.stmts.length = 2 ∧ Padded [] (assignOne ++ callBehind)
      (semicolonAt 0 :: (assignOne ++ semicolonAt 2 :: callBehind)) ∧
    ∃ line, parse (semicolonAt 0 :: (assignOne ++ semicolonAt 2 :: callBehind)) =
      .ok ⟨line, p.stmts⟩ := by
  have hcall : Padded [] callBehind callBehind := .append rfl []
  have hpad : Padded [] (assignOne ++ callBehind)
      (semicolonAt 0 :: (assignOne ++ semicolonAt 2 :: callBehind)) :=
    .inserted rfl (by simp [assignOne])
      (.statements rfl (.inserted rfl (by simp [callBehind]) hcall))
  exact ⟨_, rfl, rfl, hpad, (parse_padded_iff rfl (by simp) hpad).1.mpr rfl⟩

/-- Behind the last statement one semicolon is too many. -/
theorem parse_semicolon_behind : (∃ p, parse assignOne = .ok p) ∧
    Padded [semicolonAt 2] assignOne (assignOne ++ [semicolonAt 2]) ∧
    parse (assignOne ++ [semicolonAt 2]) =
      .error (.malformed ⟨some 2, .expected Expr.startKinds "EOF"⟩) :=
  ⟨⟨_, rfl⟩, .append rfl _, rfl⟩

end TraitCalculus.Program
