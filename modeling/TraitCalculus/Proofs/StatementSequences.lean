import TraitCalculus.Proofs.GrammarScanning

/-! Programs are read statement by statement: what is read from the tokens of one program followed
by those of another is the statements of the first followed by those of the second. -/
namespace TraitCalculus

open TraitCalculus.Parser

theorem Token.finishOf_append {ts us : List Token} (h : us ≠ []) :
    Token.finishOf (ts ++ us) = Token.finishOf us := by
  unfold Token.finishOf
  rw [List.getLast?_append_of_ne_nil ts h]

namespace Program

variable {bound n : Nat} {finish : Token} {done : List Item} {ts : List Token}

theorem itemList_nil : itemList bound done (n + 1) finish [] = .ok (done.reverse, []) := rfl

theorem itemList_succ : itemList bound done (n + 1) finish ts =
    if ts.isEmpty then .ok (done.reverse, ts)
    else match Item.parser bound finish (ts.dropWhile (·.kind = .semicolon)) with
      | .error e => .error e
      | .ok (item, rest) => itemList bound (item :: done) n finish rest := rfl

theorem itemList_of_error (hne : ts ≠ []) {e : ParseError}
    (h : Item.parser bound finish (ts.dropWhile (·.kind = .semicolon)) = .error e) :
    itemList bound done (n + 1) finish ts = .error e := by
  rw [itemList_succ, if_neg (by rwa [List.isEmpty_iff]), h]

theorem itemList_of_ok (hne : ts ≠ []) {item : Item} {rest : List Token}
    (h : Item.parser bound finish (ts.dropWhile (·.kind = .semicolon)) = .ok (item, rest)) :
    itemList bound done (n + 1) finish ts = itemList bound (item :: done) n finish rest := by
  rw [itemList_succ, if_neg (by rwa [List.isEmpty_iff]), h]

/-- A statement takes a token, also counting the semicolons in front of it. -/
theorem length_lt_of_item (hf : finish.kind = .finish) {item : Item} {rest : List Token}
    (h : Item.parser bound finish (ts.dropWhile (·.kind = .semicolon)) = .ok (item, rest)) :
    rest.length < ts.length := by
  have hscan := Item.parser_scans (le_refl bound)
  obtain ⟨-, htakes⟩ := (hscan _).takes hf rfl h
  have hdrop := (List.dropWhile_suffix (l := ts) (·.kind = .semicolon)).length_le
  omega

/-- Statements that were read before stay in front. -/
theorem itemList_done (done : List Item) : itemList bound done n finish ts =
    (itemList bound [] n finish ts).map fun r => (done.reverse ++ r.1, r.2) := by
  induction n generalizing done ts with
  | zero => rfl
  | succ n ih =>
    rcases eq_or_ne ts [] with rfl | hne
    · simp only [itemList_nil, Except.map, List.reverse_nil, List.append_nil]
    · cases hitem : Item.parser bound finish (ts.dropWhile (·.kind = .semicolon)) with
      | error e =>
        rw [itemList_of_error hne hitem, itemList_of_error hne hitem]
        rfl
      | ok r =>
        rw [itemList_of_ok hne hitem, itemList_of_ok hne hitem, ih (r.1 :: done), ih [r.1]]
        cases itemList bound [] n finish r.2 with
        | error e => rfl
        | ok s => simp [Except.map]

/-- More fuel than there are tokens makes no difference. -/
theorem itemList_fuel {bound' n' : Nat} (hf : finish.kind = .finish)
    (hbound : ts.length + 2 ≤ bound) (hbound' : bound ≤ bound') (hn : ts.length < n) (hn' : n ≤ n') :
    itemList bound' done n' finish ts = itemList bound done n finish ts := by
  induction n generalizing n' done ts with
  | zero => omega
  | succ n ih =>
    obtain ⟨n', rfl⟩ := Nat.exists_eq_add_one_of_ne_zero (by omega : n' ≠ 0)
    rcases eq_or_ne ts [] with rfl | hne
    · rfl
    · have hdrop := (List.dropWhile_suffix (l := ts) (·.kind = .semicolon)).length_le
      obtain ⟨-, hitem⟩ := (Item.parser_scans hbound' _).lasts hf rfl
        (by omega : (ts.dropWhile (·.kind = .semicolon)).length < bound - 1)
      cases hr : Item.parser bound finish (ts.dropWhile (·.kind = .semicolon)) with
      | error e =>
        rw [hr] at hitem
        rw [itemList_of_error hne hr, itemList_of_error hne hitem]
      | ok r =>
        have hlen := length_lt_of_item hf hr
        rw [hr] at hitem
        rw [itemList_of_ok hne hr, itemList_of_ok hne hitem]
        exact ih (by omega) (by omega) (by omega)

/-- Once all tokens of a list have been read as statements, reading goes on behind it. Each
statement costs one unit of fuel and at least one token. -/
theorem itemList_append {items : List Item} {rest : List Token} (hf : finish.kind = .finish)
    (h : itemList bound done n finish ts = .ok (items, rest)) :
    ∃ c ≤ ts.length, ∀ finish' us k,
      itemList bound done (c + k) finish' (ts ++ us) = itemList bound items.reverse k finish' us := by
  induction n generalizing done ts with
  | zero => cases h
  | succ n ih =>
    rcases eq_or_ne ts [] with rfl | hne
    · obtain ⟨rfl, -⟩ := Prod.mk.inj (Except.ok.inj h)
      refine ⟨0, Nat.le_refl 0, fun finish' us k => ?_⟩
      rw [Nat.zero_add, List.nil_append, List.reverse_reverse]
    · cases hr : Item.parser bound finish (ts.dropWhile (·.kind = .semicolon)) with
      | error e =>
        rw [itemList_of_error hne hr] at h
        cases h
      | ok r =>
        obtain ⟨item, mid⟩ := r
        have hmid : mid.length < ts.length := length_lt_of_item hf hr
        rw [itemList_of_ok hne hr] at h
        obtain ⟨c, hc, hcont⟩ := ih h
        refine ⟨c + 1, by omega, fun finish' us k => ?_⟩
        -- the statement is the same with `us` behind it
        have hscan := Item.parser_scans (le_refl bound)
        obtain ⟨-, htakes⟩ := (hscan _).takes hf rfl hr
        have hdrop : ts.dropWhile (·.kind = .semicolon) ≠ [] := by
          intro hnil
          rw [hnil, List.length_nil] at htakes
          omega
        have hitem : Item.parser bound finish' (ts.dropWhile (·.kind = .semicolon) ++ us) =
            .ok (item, mid ++ us) := by
          have hall : Item.parser bound finish (ts.dropWhile (·.kind = .semicolon) ++ []) =
              .ok (item, mid ++ []) := by
            rwa [List.append_nil, List.append_nil]
          exact (hscan _).keeps hf rfl hall (Nat.zero_le _) finish' us
        have hdropus : (ts ++ us).dropWhile (·.kind = .semicolon) =
            ts.dropWhile (·.kind = .semicolon) ++ us := by
          rw [List.dropWhile_append, if_neg (by rwa [List.isEmpty_iff])]
        calc itemList bound done (c + 1 + k) finish' (ts ++ us)
            = itemList bound done (c + k + 1) finish' (ts ++ us) := by
              rw [Nat.add_right_comm]
          _ = itemList bound (item :: done) (c + k) finish' (mid ++ us) :=
              itemList_of_ok (by simp [hne]) (by rw [hdropus, hitem])
          _ = itemList bound items.reverse k finish' us := hcont finish' us k

/-- What a program is read from, with any fuel that lasts. -/
theorem parse_eq (hbound : ts.length + 2 ≤ bound) (hn : ts.length + 2 ≤ n) :
    parse ts = (itemList bound [] n (Token.finishOf ts) ts).map fun r =>
      ⟨(ts.headD (Token.finishOf ts)).line, r.1⟩ := by
  rw [itemList_fuel (Token.kind_finishOf ts) (le_refl (ts.length + 2)) hbound
    (by omega : ts.length < ts.length + 2) hn]
  unfold parse run fuelFor
  dsimp only
  cases itemList (ts.length + 2) [] (ts.length + 2) (Token.finishOf ts) ts <;> rfl

/-- The statements of two programs follow each other. -/
theorem parse_append_eq {ts us : List Token} {p : Program Item} (h : parse ts = .ok p) :
    parse (ts ++ us) = (parse us).map fun q =>
      ⟨if ts = [] then q.line else p.line, p.stmts ++ q.stmts⟩ := by
  -- one bound that lasts for all three readings
  set bound := (ts ++ us).length + 2 with hbound
  have hlen : (ts ++ us).length = ts.length + us.length := List.length_append
  rw [parse_eq (by omega : ts.length + 2 ≤ bound) (by omega : ts.length + 2 ≤ bound)] at h
  cases hts : itemList bound [] bound (Token.finishOf ts) ts with
  | error e =>
    rw [hts] at h
    cases h
  | ok r =>
    obtain ⟨items, rest⟩ := r
    rw [hts] at h
    obtain rfl := Except.ok.inj h
    obtain ⟨c, hc, hcont⟩ := itemList_append (Token.kind_finishOf ts) hts
    have hboth : itemList bound [] bound (Token.finishOf (ts ++ us)) (ts ++ us) =
        itemList bound items.reverse (bound - c) (Token.finishOf (ts ++ us)) us := by
      have hrun := hcont (Token.finishOf (ts ++ us)) us (bound - c)
      rwa [Nat.add_sub_cancel' (by omega)] at hrun
    rw [parse_eq (by omega : (ts ++ us).length + 2 ≤ bound) (le_refl bound), hboth, itemList_done items.reverse,
      parse_eq (by omega : us.length + 2 ≤ bound) (by omega : us.length + 2 ≤ bound - c),
      List.reverse_reverse]
    rcases eq_or_ne us [] with rfl | hne
    · obtain ⟨k, hk⟩ := Nat.exists_eq_add_one_of_ne_zero (by omega : bound - c ≠ 0)
      rw [hk, itemList_nil, itemList_nil]
      cases ts <;> rfl
    · rw [Token.finishOf_append hne]
      cases itemList bound [] (bound - c) (Token.finishOf us) us with
      | error e => rfl
      | ok r => cases ts <;> rfl

/-- A statement is read from its own tokens alone. -/
theorem run_item_tail {pre tail : List Token} {item : Item}
    (h : run Item.parser (pre ++ tail) = .ok (item, tail)) (tail' : List Token) :
    run Item.parser (pre ++ tail') = .ok (item, tail') := by
  -- both readings with the fuel of the longer one
  set bound := max (fuelFor (pre ++ tail)) (fuelFor (pre ++ tail')) with hbound
  have hfuel (ts : List Token) (hts : fuelFor ts ≤ bound) :
      Item.parser bound (Token.finishOf ts) ts = run Item.parser ts :=
    ((Item.parser_scans hts _).lasts (Token.kind_finishOf ts) rfl (by unfold fuelFor; omega)).2
  rw [← hfuel (pre ++ tail) (le_max_left _ _)] at h
  rw [← hfuel (pre ++ tail') (le_max_right _ _)]
  exact (Item.parser_scans (le_refl bound) _).keeps (v := []) (Token.kind_finishOf _) rfl h
    (Nat.zero_le _) _ tail'

/-- Programs are read statement by statement: behind tokens that are a program, other tokens are a
program if they are one alone, with the statements of both in order, and fail as they do alone. No
statement depends on the tokens behind it. -/
theorem parse_append {ts us : List Token} {p : Program Item} (h : parse ts = .ok p) :
    ((∃ r, parse (ts ++ us) = .ok r) ↔ ∃ q, parse us = .ok q) ∧
    (∀ q, parse us = .ok q →
      parse (ts ++ us) = .ok ⟨if ts = [] then q.line else p.line, p.stmts ++ q.stmts⟩) ∧
    (∀ e, parse us = .error e → parse (ts ++ us) = .error e) ∧
    ∀ pre tail item, run Item.parser (pre ++ tail) = .ok (item, tail) →
      ∀ tail', run Item.parser (pre ++ tail') = .ok (item, tail') := by
  have happend : parse (ts ++ us) = _ := parse_append_eq h
  refine ⟨?_, ?_, ?_, fun pre tail item hitem => run_item_tail hitem⟩
  · rw [happend]
    cases parse us with
    | error e => exact ⟨fun ⟨_, hr⟩ => (nomatch hr), fun ⟨_, hq⟩ => (nomatch hq)⟩
    | ok q => exact ⟨fun _ => ⟨q, rfl⟩, fun _ => ⟨_, rfl⟩⟩
  · intro q hq
    rw [happend, hq]
    rfl
  · intro e he
    rw [happend, he]
    rfl

/-- `x = 1;` -/
def assignOne : List Token :=
  [⟨.ident, "x", 1, 1⟩, ⟨.assign, "=", 1, 3⟩, ⟨.number, "1", 1, 5⟩, ⟨.semicolon, ";", 1, 6⟩]

/-- `; f x;` on the next line, where the first semicolon is skipped. -/
def callBehind : List Token :=
  [⟨.semicolon, ";", 2, 1⟩, ⟨.ident, "f", 2, 3⟩, ⟨.ident, "x", 2, 5⟩, ⟨.semicolon, ";", 2, 6⟩]

theorem parse_append_assign_call :
    parse assignOne = .ok ⟨1, [.assign 1 "x" (.val (.atLine 1) (.int 1))]⟩ ∧
    parse (assignOne ++ callBehind) = .ok ⟨1, [.assign 1 "x" (.val (.atLine 1) (.int 1)),
      .eval 2 (.app (.atLine 2) (.var (.atLine 2) "f") (.var (.atLine 2) "x"))]⟩ :=
  have hfirst : parse assignOne = .ok ⟨1, [.assign 1 "x" (.val (.atLine 1) (.int 1))]⟩ := rfl
  ⟨hfirst, (parse_append hfirst).2.1 ⟨2, [.eval 2 (.app (.atLine 2) (.var (.atLine 2) "f")
    (.var (.atLine 2) "x"))]⟩ rfl⟩

end Program

end TraitCalculus
