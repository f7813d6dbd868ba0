import TraitCalculus.Proofs.StatementSequences

/-! Reading always ends. From every position of every token list each parser of the grammar either
gives a result and stands at a later position, or finds one of the tokens wrong; fuel for all tokens
is never short. -/
namespace TraitCalculus

open TraitCalculus.Parser

namespace Parser

variable {α : Type}

/-- From each position of a token list the reading ends: at a later position of the list, or at a
fault of the tokens ahead. It is the same for all fuel that the list asks for. -/
def Advances (p : Nat → Parser α) : Prop :=
  ∀ tokens pos,
    (∃ a pos', pos < pos' ∧ pos' ≤ tokens.length ∧ ∀ n, fuelFor tokens ≤ n →
      p n (Token.finishOf tokens) (tokens.drop pos) = .ok (a, tokens.drop pos')) ∨
    ∃ e, Faulty (Token.finishOf tokens) (tokens.drop pos) e ∧ ∀ n, fuelFor tokens ≤ n →
      p n (Token.finishOf tokens) (tokens.drop pos) = .error e

/-- A parser that takes a token, and whose fuel lasts for fewer tokens than it counts, advances. -/
theorem Advances.of_scans {p : Nat → Parser α}
    (h : ∀ {n n' : Nat}, n ≤ n' → Scans (n - 1) 1 1 (p n) (p n')) : Advances p := by
  intro tokens pos
  have hfin := Token.kind_finishOf tokens
  have hlen : (tokens.drop pos).length < fuelFor tokens - 1 := by
    unfold fuelFor
    rw [List.length_drop]
    omega
  have hsame (n : Nat) (hn : fuelFor tokens ≤ n) := (h hn _).lasts hfin rfl hlen
  have hscan := h (le_refl (fuelFor tokens)) ((tokens.drop pos).headD (Token.finishOf tokens))
  cases hr : p (fuelFor tokens) (Token.finishOf tokens) (tokens.drop pos) with
  | error e =>
    refine Or.inr ⟨e, hscan.faults hfin rfl hr ?_, fun n hn => (hsame n hn).2.trans hr⟩
    rintro rfl
    exact (hsame _ le_rfl).1 hr
  | ok r =>
    obtain ⟨a, rest⟩ := r
    obtain ⟨hsuf, htaken⟩ := hscan.takes hfin rfl hr
    rw [List.length_drop] at htaken
    refine Or.inl ⟨a, tokens.length - rest.length, by omega, Nat.sub_le _ _, fun n hn => ?_⟩
    rw [(hsame n hn).2, hr, ← List.suffix_iff_eq_drop.mp (hsuf.trans (List.drop_suffix pos tokens))]

end Parser

/-- The levels of types, from loose to tight. -/
def Ty.levels : List (Nat → Parser Ty) :=
  [parser, fun n => function (parser n) n n, fun n => applied (parser n) n,
    fun n => unapplied (parser n) n]

theorem Ty.advances_levels : ∀ p ∈ levels, Advances p := by
  have hty {n n' : Nat} (hn : n ≤ n') : Scans (n - 1 - 1) 1 1 (parser n) (parser n') :=
    (parser_scans hn).mono (Nat.sub_le _ 1)
  simp only [levels, List.forall_mem_cons]
  exact ⟨.of_scans parser_scans,
    .of_scans fun hn => scans_function (hty hn) (Nat.sub_le _ 1) hn (Nat.sub_le _ 1) hn,
    .of_scans fun hn => scans_applied (hty hn) (Nat.sub_le _ 1) hn,
    .of_scans fun hn => scans_unapplied (hty hn) (Nat.sub_le _ 1) hn, nofun⟩

namespace Expr

/-- The levels of expressions, from loose to tight. -/
def levels : List (Nat → Parser Expr) :=
  let negation n := prefixed (applied (parser n) (Ty.parser n) n) .sub .neg n
  let product n := operated (negation n) mulOps n
  let sum n := operated (product n) addOps n
  let relation n := operated (sum n) relOps n
  let complement n := prefixed (relation n) .not .not n
  let conjunction n := operated (complement n) [(.and, .and)] n
  [parser, fun n => operation (parser n) (Ty.parser n) n, conjunction, complement, relation, sum,
    product, negation, fun n => applied (parser n) (Ty.parser n) n,
    fun n => ascribed (parser n) (Ty.parser n) n, fun n => projected (parser n) n,
    fun n => atom (parser n) n]

theorem advances_levels : ∀ p ∈ levels, Advances p := by
  have hle (n : Nat) : n - 1 ≤ n := Nat.sub_le n 1
  have he {n n' : Nat} (hn : n ≤ n') : Scans (n - 1 - 1) 1 1 (parser n) (parser n') :=
    (parser_scans hn).mono (hle _)
  have hty {n n' : Nat} (hn : n ≤ n') : Scans (n - 1 - 1) 1 1 (Ty.parser n) (Ty.parser n') :=
    (Ty.parser_scans hn).mono (hle _)
  have hnegation {n n' : Nat} (hn : n ≤ n') := scans_prefixed .neg (by decide : Kind.sub ≠ .finish)
    (scans_applied (he hn) (hty hn) (hle n) hn) (hle n) hn
  have hproduct {n n' : Nat} (hn : n ≤ n') :=
    scans_operated (rfl : mulOps.lookup .finish = none) (hnegation hn) (hle n) hn
  have hsum {n n' : Nat} (hn : n ≤ n') :=
    scans_operated (rfl : addOps.lookup .finish = none) (hproduct hn) (hle n) hn
  have hrelation {n n' : Nat} (hn : n ≤ n') :=
    scans_operated (rfl : relOps.lookup .finish = none) (hsum hn) (hle n) hn
  have hcomplement {n n' : Nat} (hn : n ≤ n') :=
    scans_prefixed .not (by decide : Kind.not ≠ .finish) (hrelation hn) (hle n) hn
  simp only [levels, List.forall_mem_cons]
  exact ⟨.of_scans parser_scans,
    .of_scans fun hn => scans_operation (he hn) (hty hn) (hle _) hn,
    .of_scans fun hn => scans_operated rfl (hcomplement hn) (hle _) hn,
    .of_scans hcomplement, .of_scans hrelation, .of_scans hsum, .of_scans hproduct,
    .of_scans hnegation, .of_scans fun hn => scans_applied (he hn) (hty hn) (hle _) hn,
    .of_scans fun hn => scans_ascribed (he hn) (hty hn) (hle _) hn,
    .of_scans fun hn => scans_projected (he hn) (hle _) hn,
    .of_scans fun hn => scans_atom (he hn) (hle _) hn, nofun⟩

end Expr

namespace Program

/-- With enough fuel statements are read to the end of the tokens, or one of the tokens is found
wrong. -/
theorem itemList_ends {bound n : Nat} {finish : Token} {done : List Item} {ts : List Token}
    (hf : finish.kind = .finish) (hbound : ts.length + 2 ≤ bound) (hn : ts.length < n) :
    (∃ items, itemList bound done n finish ts = .ok (items, [])) ∨
      ∃ e, Faulty finish ts e ∧ itemList bound done n finish ts = .error e := by
  induction n generalizing done ts with
  | zero => omega
  | succ n ih =>
    rcases eq_or_ne ts [] with rfl | hne
    · exact Or.inl ⟨_, itemList_nil⟩
    · have hdrop := List.dropWhile_suffix (l := ts) (·.kind = .semicolon)
      have hscan := Item.parser_scans (le_refl bound)
        ((ts.dropWhile (·.kind = .semicolon)).headD finish)
      cases hr : Item.parser bound finish (ts.dropWhile (·.kind = .semicolon)) with
      | error e =>
        refine Or.inr ⟨e, (hscan.faults hf rfl hr ?_).mono hdrop, itemList_of_error hne hr⟩
        rintro rfl
        have hlen := hdrop.length_le
        exact (hscan.lasts hf rfl (by omega)).1 hr
      | ok r =>
        have hlen : r.2.length < ts.length := length_lt_of_item hf hr
        rw [itemList_of_ok hne hr]
        refine (ih (by omega) (by omega)).imp_right ?_
        rintro ⟨e, he, hrun⟩
        exact ⟨e, he.mono ((hscan.takes hf rfl hr).1.trans hdrop), hrun⟩

theorem parse_ends (tokens : List Token) :
    (∃ p, parse tokens = .ok p ∧ run (fun n => itemList n [] n) tokens = .ok (p.stmts, [])) ∨
      ∃ e, Faulty (Token.finishOf tokens) tokens e ∧ parse tokens = .error e := by
  have hends : (∃ items, run (fun n => itemList n [] n) tokens = .ok (items, [])) ∨
      ∃ e, Faulty (Token.finishOf tokens) tokens e ∧
        run (fun n => itemList n [] n) tokens = .error e :=
    itemList_ends (Token.kind_finishOf tokens) le_rfl (by unfold fuelFor; omega)
  rcases hends with ⟨items, h⟩ | ⟨e, he, h⟩
  · exact Or.inl ⟨⟨_, items⟩, by rw [parse, h], h⟩
  · exact Or.inr ⟨e, he, by rw [parse, h]⟩

/-- Reading ends. From every position of every token list, all levels of types and expressions,
statements, and what is read up to a dot, a bracket or a brace give a result at a later position of
the list, or find fault with a token ahead. A program is read to the end of its tokens, or one of
them is at fault. -/
theorem reading_ends :
    (∀ p ∈ Ty.levels, Advances p) ∧ (∀ p ∈ Expr.levels, Advances p) ∧ Advances Item.parser ∧
    Advances bounds ∧ (∀ done, Advances fun n => Ty.fieldList (Ty.parser n) done n) ∧
    (∀ done, Advances fun n => Expr.elementList (Expr.parser n) done n) ∧
    (∀ done, Advances fun n => Expr.fieldList (Expr.parser n) done n) ∧
    (∀ done, Advances fun n => Item.memberList .colon (Ty.parser n) done n) ∧
    (∀ done, Advances fun n => Item.memberList .assign (Expr.parser n) done n) ∧
    ∀ tokens,
      (∃ p, parse tokens = .ok p ∧ run (fun n => itemList n [] n) tokens = .ok (p.stmts, [])) ∨
        ∃ e, Faulty (Token.finishOf tokens) tokens e ∧ parse tokens = .error e := by
  have hle (n : Nat) : n - 1 ≤ n := Nat.sub_le n 1
  refine ⟨Ty.advances_levels, Expr.advances_levels,
    .of_scans fun hn => (Item.parser_scans hn).weaken (Nat.zero_le 1) le_rfl,
    .of_scans fun hn => scans_bounds (hle _) hn, fun done => ?_,
    fun done => .of_scans fun hn => ?_, fun done => ?_, fun done => .of_scans fun hn => ?_,
    fun done => .of_scans fun hn => ?_, parse_ends⟩
  · simp only [Ty.fieldList_eq]
    exact .of_scans fun hn => scans_labelled (by decide) done (Ty.parser_scans hn) (hle _) hn
  · exact Expr.scans_elementList done (Expr.parser_scans hn) (hle _) hn
  · simp only [Expr.fieldList_eq]
    exact .of_scans fun hn =>
      scans_labelled (by decide) done (Expr.parser_scans hn) (hle _) hn
  · exact Item.scans_memberList done (by decide) (Ty.parser_scans hn) (hle _) hn
  · exact Item.scans_memberList done (by decide) (Expr.parser_scans hn) (hle _) hn

/-- `[1,` -/
def openList : List Token :=
  [⟨.lbracket, "[", 1, 1⟩, ⟨.number, "1", 1, 2⟩, ⟨.comma, ",", 1, 3⟩]

theorem reading_ends_openList : Expr.parser ∈ Expr.levels ∧
    ∃ e, Faulty (Token.finishOf openList) openList e ∧ Expr.parse openList = .error e ∧
      e = .malformed ⟨some 1, .expected Expr.startKinds "EOF"⟩ := by
  have hmem : Expr.parser ∈ Expr.levels := List.mem_cons_self
  have hrun : Expr.parse openList = .error (.malformed ⟨some 1, .expected Expr.startKinds "EOF"⟩) :=
    rfl
  refine ⟨hmem, ?_⟩
  rcases reading_ends.2.1 Expr.parser hmem openList 0 with ⟨a, pos', -, -, h⟩ | ⟨e, he, h⟩
  · exact nomatch hrun.symm.trans (h _ le_rfl)
  · have hparse : Expr.parse openList = .error e := h _ le_rfl
    exact ⟨e, he, hparse, Except.error.inj (hparse.symm.trans hrun)⟩

end Program

end TraitCalculus
