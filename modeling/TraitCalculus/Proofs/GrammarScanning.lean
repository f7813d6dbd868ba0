import TraitCalculus.Proofs.Scanning

/-! How types, expressions and statements are read: one lemma for each parser of the grammar. A
type or an expression ends where the next token does not continue it, a statement ends with a token
of its own. -/
namespace TraitCalculus

open TraitCalculus.Parser

variable {M N m n n' : Nat}

namespace Ty

variable {ty ty' : Parser Ty}

theorem scans_unapplied (hty : Scans (N - 1) 1 1 ty ty') (hN : N ≤ n) (hn : n ≤ n') :
    Scans N m 1 (unapplied ty n) (unapplied ty' n') := by
  unfold unapplied
  refine scans_peek (by omega) fun t => ?_
  have hclosed (k : Kind) (hk : .finish ∉ [k]) (f : Ty → Ty) :
      Scans (N - 1) m 1 (do let u ← ty; let _ ← expect [k]; return f u)
        (do let u ← ty'; let _ ← expect [k]; return f u) :=
    hty.both fun u => (scans_expect hk).map _
  cases hk : t.kind
  case ident => exact (scansAt_next (by rw [hk]; decide)).map _
  case lparen => exact .next (by rw [hk]; decide) fun _ => hclosed .rparen (by decide) id
  case lbracket =>
    exact .next (by rw [hk]; decide) fun _ => hclosed .rbracket (by decide) (list t.line)
  case lbrace =>
    refine .next (by rw [hk]; decide) fun _ => ?_
    rw [fieldList_eq, fieldList_eq]
    exact (scans_labelled (by decide) [] hty (by omega) hn).map _
  all_goals exact scansAt_refuse (by rw [hk]; decide)

theorem scans_arguments {bound bound' : Nat} (line : Nat) (fn : Ty)
    (hty : Scans (N - 1) 1 1 ty ty') (hbound : N ≤ bound) (hbound' : bound ≤ bound') (hN : N ≤ n)
    (hn : n ≤ n') :
    Scans N 1 0 (arguments ty bound line fn n) (arguments ty' bound' line fn n') := by
  induction n generalizing N n' fn with
  | zero => exact scans_outOfFuel hN
  | succ n ih =>
    obtain ⟨n', rfl⟩ := Nat.exists_eq_add_one_of_ne_zero (by omega : n' ≠ 0)
    unfold arguments
    refine scans_kind (by omega) fun t => .ite (fun _ => ?_) fun _ => scans_pure fn t
    have harg : Scans N 1 1 (unapplied ty bound) (unapplied ty' bound') :=
      scans_unapplied hty hbound hbound'
    refine (harg.first fun arg => ?_).weaken le_rfl (Nat.zero_le 1) t
    exact ih (app line fn arg) (hty.mono (by omega)) (by omega) (by omega) (by omega)

theorem scans_applied (hty : Scans (N - 1) 1 1 ty ty') (hN : N ≤ n) (hn : n ≤ n') :
    Scans N 1 1 (applied ty n) (applied ty' n') := by
  unfold applied
  refine scans_peek (by omega) fun t => (scans_unapplied hty hN hn).first (fun fn => ?_) t
  exact scans_arguments t.line fn (hty.mono (by omega)) (by omega) hn (by omega) hn

theorem scans_function {bound bound' : Nat} (hty : Scans (N - 1) 1 1 ty ty') (hbound : N ≤ bound)
    (hbound' : bound ≤ bound') (hN : N ≤ n) (hn : n ≤ n') :
    Scans N 1 1 (function ty bound n) (function ty' bound' n') := by
  induction n generalizing N n' with
  | zero => exact scans_outOfFuel hN
  | succ n ih =>
    obtain ⟨n', rfl⟩ := Nat.exists_eq_add_one_of_ne_zero (by omega : n' ≠ 0)
    unfold function
    refine scans_peek (by omega) fun t => (scans_applied hty hbound hbound').first (fun dom => ?_) t
    refine scans_kind (by omega) fun u => .ite (fun hk => ?_) fun _ => scans_pure dom u
    have hcod : Scans (N - 1 - 1) 1 1 (function ty bound n) (function ty' bound' n') :=
      ih (hty.mono (by omega)) (by omega) (by omega) (by omega)
    exact (ScansAt.next (by rw [hk]; decide) fun _ => hcod.map _).weaken le_rfl (Nat.zero_le 1)

theorem scans_step (hty : Scans (N - 1) 1 1 ty ty') (hN : N ≤ n) (hn : n ≤ n') :
    Scans N 1 1 (step ty n) (step ty' n') := by
  unfold step
  refine scans_peek (by omega) fun t => .ite (fun hk => ?_) fun _ => scans_function hty hN hn hN hn t
  refine .next (by rw [hk]; decide) fun _ => scans_ident.both fun x => ?_
  exact (scans_bounds (by omega) hn).both fun bs => (hty.mono (by omega)).map _

theorem parser_scans (hn : n ≤ n') : Scans (n - 1) 1 1 (parser n) (parser n') := by
  induction n generalizing n' with
  | zero => exact scans_outOfFuel (Nat.le_refl 0)
  | succ n ih =>
    obtain ⟨n', rfl⟩ := Nat.exists_eq_add_one_of_ne_zero (by omega : n' ≠ 0)
    have hle : n ≤ n' := by omega
    exact scans_step (ih hle) (Nat.le_refl n) hle

end Ty

namespace Expr

variable {expr expr' operand operand' : Parser Expr} {ty ty' : Parser Ty}

theorem scans_elementList (done : List Expr) (he : Scans N 1 1 expr expr') (hN : N ≤ n)
    (hn : n ≤ n') : Scans N m 1 (elementList expr done n) (elementList expr' done n') := by
  induction n generalizing N n' done with
  | zero => exact scans_outOfFuel hN
  | succ n ih =>
    obtain ⟨n', rfl⟩ := Nat.exists_eq_add_one_of_ne_zero (by omega : n' ≠ 0)
    unfold elementList
    refine scans_kind (by omega) fun t => .ite (fun hk => ?_) fun _ => ?_
    · exact (scansAt_next (by rw [hk]; decide)).map _
    · refine he.both (fun e => (scans_skipIf .comma).second fun _ => ?_) t
      exact ih _ (he.mono (by omega)) (by omega) (by omega)

theorem scans_atom (he : Scans (N - 1) 1 1 expr expr') (hN : N ≤ n) (hn : n ≤ n') :
    Scans N m 1 (atom expr n) (atom expr' n') := by
  unfold atom
  refine scans_peek (by omega) fun t => ?_
  cases hk : t.kind
  case number =>
    cases hi : Text.readInteger t.text with
    | error e => exact .next_fail (by rw [hk]; decide) fun _ _ h => .number h hk hi
    | ok i => exact (scansAt_next (by rw [hk]; decide)).map fun _ => val (.atLine t.line) (.int i)
  case ident | string | trueWord | falseWord => exact (scansAt_next (by rw [hk]; decide)).map _
  case lparen =>
    refine .next (by rw [hk]; decide) fun _ => he.both fun e => ?_
    exact (scans_expect (by decide)).map _
  case lbracket =>
    exact .next (by rw [hk]; decide) fun _ => (scans_elementList [] he (by omega) hn).map _
  case lbrace =>
    refine .next (by rw [hk]; decide) fun _ => ?_
    rw [fieldList_eq, fieldList_eq]
    exact (scans_labelled (by decide) [] he (by omega) hn).map _
  all_goals exact scansAt_refuse (by rw [hk]; decide)

theorem scans_projections (line : Nat) (e : Expr) (hN : N ≤ n) (hn : n ≤ n') :
    Scans N 1 0 (projections line e n) (projections line e n') := by
  induction n generalizing N n' e with
  | zero => exact scans_outOfFuel hN
  | succ n ih =>
    obtain ⟨n', rfl⟩ := Nat.exists_eq_add_one_of_ne_zero (by omega : n' ≠ 0)
    unfold projections
    refine scans_kind (by omega) fun t => .ite (fun hk => ?_) fun _ => scans_pure e t
    refine (ScansAt.next (by rw [hk]; decide) fun _ => ?_).weaken le_rfl (Nat.zero_le 1)
    exact scans_ident.first fun label => ih _ (by omega) (by omega)

theorem scans_projected (he : Scans (N - 1) 1 1 expr expr') (hN : N ≤ n) (hn : n ≤ n') :
    Scans N 1 1 (projected expr n) (projected expr' n') := by
  unfold projected
  refine scans_peek (by omega) fun t => (scans_atom he hN hn).first (fun e => ?_) t
  exact scans_projections t.line e (by omega) hn

theorem scans_ascribed (he : Scans (N - 1) 1 1 expr expr') (hty : Scans (N - 1) 1 1 ty ty')
    (hN : N ≤ n) (hn : n ≤ n') : Scans N 1 1 (ascribed expr ty n) (ascribed expr' ty' n') := by
  unfold ascribed
  refine scans_peek (by omega) fun t => (scans_projected he hN hn).first (fun e => ?_) t
  refine scans_kind (by omega) fun u => .ite (fun hk => ?_) fun _ => scans_pure e u
  refine (ScansAt.next (by rw [hk]; decide) fun _ => ?_).weaken le_rfl (Nat.zero_le 1)
  exact (hty.mono (by omega)).map _

theorem scans_arguments {bound bound' : Nat} (line : Nat) (fn : Expr)
    (he : Scans (N - 1) 1 1 expr expr') (hty : Scans (N - 1) 1 1 ty ty') (hbound : N ≤ bound)
    (hbound' : bound ≤ bound') (hN : N ≤ n) (hn : n ≤ n') :
    Scans N 1 0 (arguments expr ty bound line fn n) (arguments expr' ty' bound' line fn n') := by
  induction n generalizing N n' fn with
  | zero => exact scans_outOfFuel hN
  | succ n ih =>
    obtain ⟨n', rfl⟩ := Nat.exists_eq_add_one_of_ne_zero (by omega : n' ≠ 0)
    have hrest (fn : Expr) {M : Nat} (hM : M ≤ N - 1) :
        Scans M 1 0 (arguments expr ty bound line fn n) (arguments expr' ty' bound' line fn n') :=
      ih fn (he.mono (by omega)) (hty.mono (by omega)) (by omega) (by omega) (by omega)
    unfold arguments
    refine scans_kind (by omega) fun t => .ite (fun _ => ?_) fun _ => .ite (fun hk => ?_) fun _ => ?_
    · refine Scans.weaken ?_ le_rfl (Nat.zero_le 1) t
      exact (scans_ascribed he hty hbound hbound').first fun arg => hrest _ (by omega)
    · refine (ScansAt.next (by rw [hk]; decide) fun _ => ?_).weaken le_rfl (Nat.zero_le 1)
      have hs : Scans (N - 1) 1 1 (Ty.unapplied ty bound) (Ty.unapplied ty' bound') :=
        Ty.scans_unapplied (hty.mono (by omega)) (by omega) hbound'
      exact hs.first fun s => hrest _ (by omega)
    · exact scans_pure fn t

theorem scans_applied (he : Scans (N - 1) 1 1 expr expr') (hty : Scans (N - 1) 1 1 ty ty')
    (hN : N ≤ n) (hn : n ≤ n') : Scans N 1 1 (applied expr ty n) (applied expr' ty' n') := by
  unfold applied
  refine scans_peek (by omega) fun t => (scans_ascribed he hty hN hn).first (fun fn => ?_) t
  exact scans_arguments t.line fn (he.mono (by omega)) (hty.mono (by omega)) (by omega) hn
    (by omega) hn

theorem scans_prefixed {k : Kind} (op : UnOp) (hk : k ≠ .finish)
    (ho : Scans N 1 1 operand operand') (hN : N ≤ n) (hn : n ≤ n') :
    Scans N 1 1 (prefixed operand k op n) (prefixed operand' k op n') := by
  induction n generalizing N n' with
  | zero => exact scans_outOfFuel hN
  | succ n ih =>
    obtain ⟨n', rfl⟩ := Nat.exists_eq_add_one_of_ne_zero (by omega : n' ≠ 0)
    unfold prefixed
    refine scans_peek (by omega) fun t => .ite (fun ht => ?_) fun _ => ho t
    refine .next (by rw [ht]; exact hk) fun _ => ?_
    exact (ih (ho.mono (by omega)) (by omega) (by omega)).map _

theorem scans_operations {ops : List (Kind × BinOp)} (line : Nat) (left : Expr)
    (hops : ops.lookup .finish = none) (ho : Scans N 1 1 operand operand') (hN : N ≤ n)
    (hn : n ≤ n') :
    Scans N 1 0 (operations operand ops line left n) (operations operand' ops line left n') := by
  induction n generalizing N n' left with
  | zero => exact scans_outOfFuel hN
  | succ n ih =>
    obtain ⟨n', rfl⟩ := Nat.exists_eq_add_one_of_ne_zero (by omega : n' ≠ 0)
    unfold operations
    refine scans_kind (by omega) fun t => ?_
    cases hop : ops.lookup t.kind with
    | none => exact scans_pure left t
    | some op =>
      have ht : t.kind ≠ .finish := by
        intro h
        rw [h, hops] at hop
        cases hop
      refine (ScansAt.next ht fun _ => ?_).weaken le_rfl (Nat.zero_le 1)
      refine (ho.mono (by omega)).first fun right => ?_
      exact ih _ (ho.mono (by omega)) (by omega) (by omega)

theorem scans_operated {ops : List (Kind × BinOp)} (hops : ops.lookup .finish = none)
    (ho : Scans N 1 1 operand operand') (hN : N ≤ n) (hn : n ≤ n') :
    Scans N 1 1 (operated operand ops n) (operated operand' ops n') := by
  unfold operated
  refine scans_peek (by omega) fun t => ho.first (fun left => ?_) t
  exact scans_operations t.line left hops (ho.mono (by omega)) (by omega) hn

theorem scans_operation (he : Scans (N - 1) 1 1 expr expr') (hty : Scans (N - 1) 1 1 ty ty')
    (hN : N ≤ n) (hn : n ≤ n') : Scans N 1 1 (operation expr ty n) (operation expr' ty' n') := by
  have hnegation := scans_prefixed .neg (by decide : Kind.sub ≠ .finish)
    (scans_applied he hty hN hn) hN hn
  have hproduct := scans_operated (rfl : mulOps.lookup .finish = none) hnegation hN hn
  have hsum := scans_operated (rfl : addOps.lookup .finish = none) hproduct hN hn
  have hrelation := scans_operated (rfl : relOps.lookup .finish = none) hsum hN hn
  have hcomplement := scans_prefixed .not (by decide : Kind.not ≠ .finish) hrelation hN hn
  exact scans_operated rfl (scans_operated rfl hcomplement hN hn) hN hn

theorem refuses_atom {k : Kind} (hk : k ∉ startKinds) : Refuses k (atom expr n) := by
  refine refuses_peek fun t ht => ?_
  cases htk : t.kind
  case ident | number | string | trueWord | falseWord | lparen | lbracket | lbrace =>
    rw [htk] at ht
    exact absurd ht (by rintro rfl; exact hk (by decide))
  all_goals exact fun _ _ _ _ => nofun

theorem refuses_prefixed {k k' : Kind} (op : UnOp) (ho : Refuses k operand) (hk : k ≠ k') :
    Refuses k (prefixed operand k' op n) := by
  cases n with
  | zero => exact fun _ _ _ _ => nofun
  | succ n =>
    refine refuses_peek fun t ht => ?_
    rw [if_neg (by rw [ht]; exact hk)]
    exact ho

theorem refuses_operated {k : Kind} (ops : List (Kind × BinOp)) (ho : Refuses k operand) :
    Refuses k (operated operand ops n) :=
  refuses_peek fun _ _ => ho.bind

/-- Below lambdas and conditionals, no expression starts with a backslash. -/
theorem refuses_operation : Refuses .backslash (operation expr ty n) := by
  have hatom : Refuses .backslash (atom expr n) := refuses_atom (by decide)
  have happlied : Refuses .backslash (applied expr ty n) :=
    refuses_peek fun _ _ => (refuses_peek fun _ _ => (refuses_peek fun _ _ => hatom.bind).bind).bind
  have hnegation : Refuses .backslash (prefixed (applied expr ty n) .sub .neg n) :=
    refuses_prefixed .neg happlied (by decide)
  have hrelation := refuses_operated (n := n) relOps
    (refuses_operated (n := n) addOps (refuses_operated (n := n) mulOps hnegation))
  have hcomplement := refuses_prefixed (n := n) .not hrelation (by decide : Kind.backslash ≠ .not)
  exact refuses_operated [(.or, .or)] (refuses_operated [(.and, .and)] hcomplement)

theorem scans_step (he : Scans (N - 1) 1 1 expr expr') (hty : Scans (N - 1) 1 1 ty ty')
    (hN : N ≤ n) (hn : n ≤ n') : Scans N 1 1 (step expr ty n) (step expr' ty' n') := by
  unfold step
  refine scans_peek (by omega) fun t => ?_
  by_cases hb : t.kind = .backslash
  · -- two tokens are taken before the third matters, and without it nothing is read
    refine ScansAt.weaken (.kindAhead (fun k => ?_) (.inr (by omega : 2 < 1 + 2))) le_rfl
      (by omega)
    have hnext : ScansAt t N 1 1 next next := scansAt_next (by rw [hb]; decide)
    refine .ite (fun _ => ?_) fun _ => .ite (fun _ => ?_) fun _ => .ite (fun hk => ?_) fun _ => ?_
    · refine hnext.bind (fun _ => scans_ident.both fun x => ?_) (by omega)
      refine (scans_expect (by decide)).both fun _ => ?_
      refine (hty.mono (by omega)).both fun s => ?_
      exact (scans_expect (by decide)).both fun _ => (he.mono (by omega)).map _
    · refine hnext.bind (fun _ => scans_ident.both fun x => ?_) (by omega)
      exact (scans_bounds (by omega) hn).both fun bs => (he.mono (by omega)).map _
    · rw [hb] at hk
      cases hk
    · exact (scans_operation he hty hN hn t).of_refuses (hb ▸ refuses_operation)
  · refine .kindAhead (fun k => ?_) (.inl fun k k' => by simp only [hb, false_and, if_false])
    simp only [hb, false_and, if_false]
    refine .ite (fun hk => ?_) fun _ => scans_operation he hty hN hn t
    refine .next (by rw [hk]; decide) fun _ => he.both fun c => ?_
    refine (scans_expect (by decide)).both fun _ => ?_
    refine (he.mono (by omega)).both fun y => ?_
    exact (scans_expect (by decide)).both fun _ => (he.mono (by omega)).map _

theorem parser_scans (hn : n ≤ n') : Scans (n - 1) 1 1 (parser n) (parser n') := by
  induction n generalizing n' with
  | zero => exact scans_outOfFuel (Nat.le_refl 0)
  | succ n ih =>
    obtain ⟨n', rfl⟩ := Nat.exists_eq_add_one_of_ne_zero (by omega : n' ≠ 0)
    have hle : n ≤ n' := by omega
    exact scans_step (ih hle) (Ty.parser_scans hle) (Nat.le_refl n) hle

end Expr

namespace Item

theorem scans_memberList {α : Type} {item item' : Parser α} {separator : Kind}
    (done : List (Member α)) (hs : .finish ∉ [separator]) (hi : Scans N 1 1 item item')
    (hN : N ≤ n) (hn : n ≤ n') :
    Scans N m 1 (memberList separator item done n) (memberList separator item' done n') := by
  induction n generalizing N n' done with
  | zero => exact scans_outOfFuel hN
  | succ n ih =>
    obtain ⟨n', rfl⟩ := Nat.exists_eq_add_one_of_ne_zero (by omega : n' ≠ 0)
    unfold memberList
    refine scans_kind (by omega) fun t => .ite (fun hk => ?_) fun _ => ?_
    · exact (scansAt_next (by rw [hk]; decide)).map _
    · refine (scans_expect (by decide)).both (fun label => ?_) t
      refine (scans_expect hs).both fun _ => ?_
      refine (hi.mono (by omega)).both fun a => ?_
      refine (scans_expect (by decide)).both fun _ => ?_
      exact ih _ (hi.mono (by omega)) (by omega) (by omega)

theorem scans_nameList (done : List String) (hN : N ≤ n) (hn : n ≤ n') :
    Scans N 1 0 (nameList done n) (nameList done n') := by
  induction n generalizing N n' done with
  | zero => exact scans_outOfFuel hN
  | succ n ih =>
    obtain ⟨n', rfl⟩ := Nat.exists_eq_add_one_of_ne_zero (by omega : n' ≠ 0)
    unfold nameList
    refine scans_kind (by omega) fun t => .ite (fun _ => ?_) fun _ => scans_pure _ t
    refine (scans_ident.first fun x => ?_).weaken le_rfl (Nat.zero_le 1) t
    exact ih _ (by omega) (by omega)

/-- A statement ends with a token of its own, so that its reading depends on none that it
leaves. -/
theorem parser_scans (hn : n ≤ n') : Scans (n - 1) 0 1 (parser n) (parser n') := by
  have hty := Ty.parser_scans hn
  have he := Expr.parser_scans hn
  -- both kinds of statement that start with no keyword end alike
  have hends (f : Expr → Item) {M : Nat} (hM : M ≤ n - 1) (t : Token) :
      ScansAt t M 0 2 (do let e ← Expr.parser n; let _ ← expect [.semicolon]; return f e)
        (do let e ← Expr.parser n'; let _ ← expect [.semicolon]; return f e) :=
    (he.mono hM t).bind (fun e => (scans_expect (by decide)).map _) (by omega)
  unfold parser
  refine scans_peek (by omega) fun t => ?_
  by_cases hi : t.kind = .ident
  · refine ScansAt.weaken (.kindAhead (fun k => ?_) (.inr (by omega : 1 < 0 + 2))) le_rfl (by omega)
    simp only [hi, true_and]
    refine .ite (fun _ => ?_) fun _ => hends _ le_rfl t
    refine ScansAt.bind (scansAt_next (by rw [hi]; decide)) (fun _ => ?_) (by decide : 1 ≤ 0 + 1)
    exact scans_next.second fun _ t => (hends _ (by omega) t).weaken le_rfl (by omega)
  · refine .kindAhead (fun k => ?_) (.inl fun k k' => by simp only [hi, false_and, if_false])
    simp only [hi, false_and, if_false]
    cases hk : t.kind
    case traitWord =>
      refine .next (by rw [hk]; decide) fun _ => scans_ident.both fun name => ?_
      refine (scans_nameList [] (by omega) hn).second fun params => ?_
      refine (scans_expect (by decide)).both fun _ => ?_
      exact (scans_memberList [] (by decide) (hty.mono (by omega)) (by omega) hn).map _
    case structWord =>
      refine .next (by rw [hk]; decide) fun _ => scans_ident.both fun name => ?_
      refine (scans_expect (by decide)).both fun _ => ?_
      exact (scans_memberList [] (by decide) (hty.mono (by omega)) (by omega) hn).map _
    case implWord =>
      refine .next (by rw [hk]; decide) fun _ => scans_ident.both fun name => ?_
      refine (scans_expect (by decide)).both fun _ => ?_
      refine (Ty.scans_unapplied (hty.mono (by omega)) (by omega) hn).both fun type => ?_
      refine (scans_expect (by decide)).both fun _ => ?_
      exact (scans_memberList [] (by decide) (he.mono (by omega)) (by omega) hn).map _
    case typeWord =>
      refine .next (by rw [hk]; decide) fun _ => scans_ident.both fun x => ?_
      refine (scans_expect (by decide)).both fun _ => ?_
      exact (hty.mono (by omega)).both fun s => (scans_expect (by decide)).map _
    all_goals exact (hends _ le_rfl t).weaken le_rfl (by omega)

end Item

end TraitCalculus
