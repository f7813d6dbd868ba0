import TraitCalculus.Proofs.LexedForms
import TraitCalculus.Proofs.Readings

/-! What a reading keeps of its tokens. Texts are kept in order. The tokens hold a pair of
parentheses for each pair that the printed form of the tree has or lost, lambdas in parentheses not
counted. -/
namespace TraitCalculus

open TraitCalculus.Parser

namespace Expr

mutual

/-- The texts in an expression, from left to right. -/
def texts : Expr → List String
  | lam _ _ _ body => body.texts
  | tlam _ _ _ body => body.texts
  | cond _ c y z => c.texts ++ y.texts ++ z.texts
  | bin _ _ l r => l.texts ++ r.texts
  | un _ _ e => e.texts
  | app _ f a => f.texts ++ a.texts
  | tapp _ f _ => f.texts
  | ascribe _ e _ => e.texts
  | proj _ e _ => e.texts
  | var .. => []
  | val _ v => textsOf [v.word]
  | list _ es => textsItems es
  | record _ fs => textsFields fs

def textsItems : List Expr → List String
  | [] => []
  | e :: es => e.texts ++ textsItems es

def textsFields : List (String × Expr) → List String
  | [] => []
  | (_, e) :: fs => e.texts ++ textsFields fs

end

theorem textsItems_eq (es : List Expr) : textsItems es = es.flatMap texts :=
  walk_eq_flatMap rfl (fun _ _ => rfl) es

theorem textsFields_eq (fs : List (String × Expr)) : textsFields fs = fs.flatMap fun f => f.2.texts :=
  walk_eq_flatMap rfl (fun _ _ => rfl) fs

end Expr

/-- The texts among tokens. -/
def Token.texts (ts : List Token) : List String := textsOf (ts.map Token.word)

theorem Token.texts_cons {t : Token} (ht : t.kind ≠ .string) (ts : List Token) :
    Token.texts (t :: ts) = Token.texts ts := by
  have hnone : textsOf [t.word] = [] := by
    simp [textsOf, Token.word, ht]
  rw [Token.texts, List.map_cons, textsOf_cons, hnone, List.nil_append, Token.texts]

theorem Token.texts_text {t : Token} (ht : t.kind = .string) (ts : List Token) :
    Token.texts (t :: ts) = t.text :: Token.texts ts := by
  have hself : textsOf [t.word] = [t.text] := by
    simp [textsOf, Token.word, ht]
  rw [Token.texts, List.map_cons, textsOf_cons, hself, List.singleton_append, Token.texts]

theorem texts_skips {k : Kind} (hk : k ≠ .string) {ts us : List Token} (h : Skips k ts us) :
    Token.texts ts = Token.texts us := by
  cases h with
  | keep ts => rfl
  | skip ht => exact Token.texts_cons (ht ▸ hk) us

theorem texts_listed {α : Type} {lead : α → List Token → List Token → Prop} {close : Kind}
    {items : List (α × List Token × List Token)} {ts rest : List Token} {g : α → List String}
    (h : Listed lead close items ts rest) (hclose : close ≠ .string)
    (hlead : ∀ a ts start, lead a ts start → Token.texts ts = Token.texts start)
    (hitems : ∀ i ∈ items, Token.texts i.2.1 = g i.1 ++ Token.texts i.2.2) :
    Token.texts ts = items.flatMap (fun i => g i.1) ++ Token.texts rest := by
  induction h with
  | nil ht => exact Token.texts_cons (ht ▸ hclose) _
  | @cons a ts start stop us rest items ha hskip _ ih =>
    obtain ⟨hitem, hmore⟩ := List.forall_mem_cons.mp hitems
    calc Token.texts ts
        = Token.texts start := hlead a ts start ha
      _ = g a ++ Token.texts stop := hitem
      _ = g a ++ Token.texts us := by rw [texts_skips (by decide) hskip]
      _ = g a ++ (items.flatMap (fun i => g i.1) ++ Token.texts rest) := by rw [ih hmore]
      _ = ((a, start, stop) :: items).flatMap (fun i => g i.1) ++ Token.texts rest := by
        rw [List.flatMap_cons, List.append_assoc]

theorem texts_labelled {α : Type} {sign : Kind} (hsign : sign ≠ .string) (f : String × α)
    (ts start : List Token) (h : Labelled sign f ts start) : Token.texts ts = Token.texts start := by
  obtain ⟨l, c, hl, -, hc, rfl⟩ := h
  rw [Token.texts_cons (hl ▸ by decide), Token.texts_cons (hc ▸ hsign)]

theorem texts_bounded {bs : List String} {ts rest : List Token} (h : Bounded bs ts rest) :
    Token.texts ts = Token.texts rest := by
  have hnamed {bs : List String} {ts rest : List Token} (h : Named bs ts rest) :
      Token.texts ts = Token.texts rest := by
    induction h with
    | nil _ => rfl
    | cons hx hskip _ ih =>
      rw [Token.texts_cons (hx ▸ by decide), texts_skips (by decide) hskip, ih]
  cases h with
  | none hd => exact Token.texts_cons (hd ▸ by decide) rest
  | some hi hbs hd =>
    rw [Token.texts_cons (hi ▸ by decide), hnamed hbs, Token.texts_cons (hd ▸ by decide)]

/-- Types hold no texts. -/
theorem Ty.Reading.texts_eq {k : Nat} {t : Ty} {ts rest : List Token} (h : Ty.Reading k t ts rest) :
    Token.texts ts = Token.texts rest := by
  induction h with
  | name ht => exact Token.texts_cons (ht ▸ by decide) _
  | parens hl _ hr ih | list hl _ hr ih =>
    rw [Token.texts_cons (hl ▸ by decide), ih, Token.texts_cons (hr ▸ by decide)]
  | record hl hfs _ _ ih =>
    have hnone := texts_listed (g := fun _ => []) hfs (by decide) (texts_labelled (by decide)) ih
    rw [Token.texts_cons (hl ▸ by decide), hnone]
    simp
  | app _ _ ihf iha => rw [ihf, iha]
  | arrow _ ht _ ihd ihc => rw [ihd, Token.texts_cons (ht ▸ by decide), ihc]
  | all ht hx hbs _ ih =>
    rw [Token.texts_cons (ht ▸ by decide), Token.texts_cons (hx ▸ by decide), texts_bounded hbs, ih]
  | loosen _ ih => exact ih

namespace Expr

/-- The texts of the tokens are those of the expression, in order, and those left. -/
theorem Reading.texts_eq {k : Nat} {e : Expr} {ts rest : List Token} (h : Reading k e ts rest) :
    Token.texts ts = e.texts ++ Token.texts rest := by
  induction h with
  | var ht => exact Token.texts_cons (ht ▸ by decide) _
  | int ht _ => exact Token.texts_cons (ht ▸ by decide) _
  | text ht => exact Token.texts_text ht _
  | @bool t b _ ht =>
    have hstring : t.kind ≠ .string := by
      rw [ht]
      cases b <;> decide
    rw [Token.texts_cons hstring]
    cases b <;> rfl
  | parens hl _ hr ih =>
    rw [Token.texts_cons (hl ▸ by decide), ih, Token.texts_cons (hr ▸ by decide)]
  | list hl hes _ ih =>
    have hitems := texts_listed hes (by decide) (fun _ _ _ h => congrArg Token.texts h) ih
    rw [Token.texts_cons (hl ▸ by decide), hitems, texts, textsItems_eq, List.flatMap_map]
  | record hl hfs _ _ ih =>
    have hitems := texts_listed (g := fun f => f.2.texts) hfs (by decide)
      (texts_labelled (by decide)) ih
    rw [Token.texts_cons (hl ▸ by decide), hitems, texts, textsFields_eq, List.flatMap_map]
  | proj _ hd hl ih =>
    rw [ih, Token.texts_cons (hd ▸ by decide), Token.texts_cons (hl ▸ by decide), texts]
  | ascribe _ hc ht _ ih | tapp _ hc ht ih =>
    rw [ih, Token.texts_cons (hc ▸ by decide), ht.texts_eq, texts]
  | app _ _ ihf iha => rw [ihf, iha, texts, List.append_assoc]
  | un op ht _ ih =>
    rw [Token.texts_cons (by rw [ht]; cases op <;> decide), ih, texts]
  | bin op _ ht _ ihl ihr =>
    rw [ihl, Token.texts_cons (by rw [ht]; cases op <;> decide), ihr, texts, List.append_assoc]
  | cond ht _ hu _ hv _ ihc ihy ihz =>
    rw [Token.texts_cons (ht ▸ by decide), ihc, Token.texts_cons (hu ▸ by decide), ihy,
      Token.texts_cons (hv ▸ by decide), ihz, texts, List.append_assoc, List.append_assoc]
  | lam ht hx hc hu hd _ ih =>
    rw [Token.texts_cons (ht ▸ by decide), Token.texts_cons (hx ▸ by decide),
      Token.texts_cons (hc ▸ by decide), hu.texts_eq, Token.texts_cons (hd ▸ by decide), ih, texts]
  | tlam ht hx hbs _ ih =>
    rw [Token.texts_cons (ht ▸ by decide), Token.texts_cons (hx ▸ by decide), texts_bounded hbs, ih,
      texts]
  | loosen _ ih => exact ih

end Expr

/-- The opening parentheses among kinds, without those of lambdas. -/
def pairs : List Kind → Nat
  | [] => 0
  | k :: ks => (if k = .lparen ∧ ks.head? ≠ some .backslash then 1 else 0) + pairs ks

theorem pairs_cons {k : Kind} (hk : k ≠ .lparen) (ks : List Kind) : pairs (k :: ks) = pairs ks := by
  rw [pairs, if_neg fun h => hk h.1, Nat.zero_add]

theorem pairs_lparen {ks : List Kind} (h : ks.head? ≠ some .backslash) :
    pairs (.lparen :: ks) = pairs ks + 1 := by
  rw [pairs, if_pos ⟨rfl, h⟩, Nat.add_comm]

theorem pairs_lambda {ks : List Kind} (h : ks.head? = some .backslash) :
    pairs (.lparen :: ks) = pairs ks := by
  rw [pairs, if_neg fun hk => hk.2 h, Nat.zero_add]

def Token.pairs (ts : List Token) : Nat := TraitCalculus.pairs (ts.map (·.kind))

theorem Token.pairs_cons {t : Token} (ht : t.kind ≠ .lparen) (ts : List Token) :
    Token.pairs (t :: ts) = Token.pairs ts :=
  TraitCalculus.pairs_cons ht _

theorem pairs_skips {k : Kind} (hk : k ≠ .lparen) {ts us : List Token} (h : Skips k ts us) :
    Token.pairs ts = Token.pairs us := by
  cases h with
  | keep ts => rfl
  | skip ht => exact Token.pairs_cons (ht ▸ hk) us

theorem pairs_listed {α : Type} {lead : α → List Token → List Token → Prop} {close : Kind}
    {items : List (α × List Token × List Token)} {ts rest : List Token} {g : α → Nat}
    (h : Listed lead close items ts rest) (hclose : close ≠ .lparen)
    (hlead : ∀ a ts start, lead a ts start → Token.pairs ts = Token.pairs start)
    (hitems : ∀ i ∈ items, Token.pairs i.2.2 + g i.1 ≤ Token.pairs i.2.1) :
    Token.pairs rest + (items.map fun i => g i.1).sum ≤ Token.pairs ts := by
  induction h with
  | nil ht => exact (Token.pairs_cons (ht ▸ hclose) _).ge
  | @cons a ts start stop us rest items ha hskip _ ih =>
    obtain ⟨hitem, hmore⟩ := List.forall_mem_cons.mp hitems
    have hrest := ih hmore
    rw [hlead a ts start ha, List.map_cons, List.sum_cons]
    rw [← pairs_skips (by decide) hskip] at hrest
    dsimp only at hitem ⊢
    omega

theorem pairs_labelled {α : Type} {sign : Kind} (hsign : sign ≠ .lparen) (f : String × α)
    (ts start : List Token) (h : Labelled sign f ts start) : Token.pairs ts = Token.pairs start := by
  obtain ⟨l, c, hl, -, hc, rfl⟩ := h
  rw [Token.pairs_cons (hl ▸ by decide), Token.pairs_cons (hc ▸ hsign)]

theorem pairs_bounded {bs : List String} {ts rest : List Token} (h : Bounded bs ts rest) :
    Token.pairs ts = Token.pairs rest := by
  have hnamed {bs : List String} {ts rest : List Token} (h : Named bs ts rest) :
      Token.pairs ts = Token.pairs rest := by
    induction h with
    | nil _ => rfl
    | cons hx hskip _ ih =>
      rw [Token.pairs_cons (hx ▸ by decide), pairs_skips (by decide) hskip, ih]
  cases h with
  | none hd => exact Token.pairs_cons (hd ▸ by decide) rest
  | some hi hbs hd =>
    rw [Token.pairs_cons (hi ▸ by decide), hnamed hbs, Token.pairs_cons (hd ▸ by decide)]

namespace Ty

mutual

/-- The pairs of parentheses in a printed type. -/
def wraps : Ty → Nat
  | name .. => 0
  | all _ _ _ body => body.wraps
  | arrow _ dom cod =>
    dom.wraps + cod.wraps + (if dom.level ≤ 1 then 1 else 0) + (if cod.level < 1 then 1 else 0)
  | app _ fn arg =>
    fn.wraps + arg.wraps + (if fn.level < 2 then 1 else 0) + (if arg.level < 2 then 1 else 0)
  | list _ elem => elem.wraps
  | emptyList => 0
  | record _ fields => wrapsFields fields

def wrapsFields : List (String × Ty) → Nat
  | [] => 0
  | (_, t) :: fields => t.wraps + wrapsFields fields

end

theorem wrapsFields_eq (fs : List (String × Ty)) : wrapsFields fs = (fs.map (·.2.wraps)).sum :=
  walk_eq_sum rfl (fun _ _ => rfl) fs

theorem wrapsFields_add (fs : List (String × Ty)) :
    wrapsFields fs + lostFields fs = (fs.map fun f => f.2.wraps + f.2.lost).sum := by
  rw [wrapsFields_eq, lostFields_eq, List.sum_map_add]

/-- A type starts with no backslash. -/
theorem Reading.exists_head {k : Nat} {t : Ty} {ts rest : List Token} (h : Reading k t ts rest) :
    ∃ u us, ts = u :: us ∧ u.kind ≠ .backslash := by
  induction h with
  | name ht => exact ⟨_, _, rfl, ht ▸ by decide⟩
  | parens hl _ _ _ | list hl _ _ _ | record hl _ _ _ _ | all hl _ _ _ _ =>
    exact ⟨_, _, rfl, hl ▸ by decide⟩
  | app _ _ ih _ => exact ih
  | arrow _ _ _ ih _ => exact ih
  | loosen _ ih => exact ih

/-- Each pair that a printed type has or lost stands in the tokens, and one more around a type that
is read at a tighter level than its own. -/
theorem Reading.pairs_le {k : Nat} {t : Ty} {ts rest : List Token} (h : Reading k t ts rest) :
    Token.pairs rest + t.wraps + t.lost + (if t.level < k then 1 else 0) ≤ Token.pairs ts := by
  induction h with
  | name ht =>
    rw [Token.pairs_cons (ht ▸ by decide)]
    rfl
  | @parens l r u ts rest hl hu hr ih =>
    obtain ⟨v, us, rfl, hv⟩ := hu.exists_head
    have hpair : Token.pairs (l :: v :: us) = Token.pairs (v :: us) + 1 := by
      rw [Token.pairs, List.map_cons, hl]
      exact pairs_lparen fun h => hv (Option.some.inj h)
    rw [Token.pairs_cons (hr ▸ by decide)] at ih
    rw [hpair]
    split_ifs at ih ⊢ <;> omega
  | @list l r u ts rest hl _ hr ih =>
    have hown : ¬(Ty.list l.line u).level < 3 := lt_irrefl 3
    rw [Token.pairs_cons (hr ▸ by decide)] at ih
    rw [Token.pairs_cons (hl ▸ by decide), wraps, lost, if_neg hown]
    omega
  | @record l fs ts rest hl hfs _ _ ih =>
    have hown : ¬(Ty.record l.line (fs.map (·.1))).level < 3 := lt_irrefl 3
    have hitems := pairs_listed (g := fun f => f.2.wraps + f.2.lost) hfs (by decide)
      (pairs_labelled (by decide)) fun f hf => by
        have := ih f hf
        omega
    have hsum := wrapsFields_add (fs.map (·.1))
    rw [List.map_map] at hsum
    rw [Token.pairs_cons (hl ▸ by decide), wraps, lost, if_neg hown]
    simp only [Function.comp_def] at hsum
    omega
  | @app line f a ts mid rest _ _ ihf iha =>
    have hown : ¬(Ty.app line f a).level < 2 := lt_irrefl 2
    rw [wraps, lost, if_neg hown]
    split_ifs at ihf iha ⊢ <;> omega
  | @arrow line t d c ts mid rest _ ht _ ihd ihc =>
    have hown : ¬(Ty.arrow line d c).level < 1 := lt_irrefl 1
    rw [Token.pairs_cons (ht ▸ by decide)] at ihd
    rw [wraps, lost, if_neg hown]
    split_ifs at ihd ihc ⊢ <;> omega
  | @all t x bs u ts mid rest ht hx hbs _ ih =>
    rw [Token.pairs_cons (ht ▸ by decide), Token.pairs_cons (hx ▸ by decide), pairs_bounded hbs,
      wraps, lost, if_neg (Nat.not_lt_zero _)]
    omega
  | loosen _ ih =>
    split_ifs at ih ⊢ <;> omega

end Ty

def Param.wraps : Param → Nat
  | typed t => t.wraps
  | _ => 0

namespace Expr

def isLambda : Expr → Bool
  | lam .. | tlam .. => true
  | _ => false

/-- One pair of parentheses around an expression if `b` holds, which for a lambda does not count. -/
def slot (b : Bool) (e : Expr) : Nat := if b && !e.isLambda then 1 else 0

mutual

/-- The pairs of parentheses in a printed expression, without those around lambdas. -/
def wraps : Expr → Nat
  | lam _ _ p body => p.wraps + body.wraps
  | tlam _ _ _ body => body.wraps
  | cond _ c y z => c.wraps + y.wraps + z.wraps
  | bin _ op l r =>
    l.wraps + r.wraps + slot (l.level < op.level) l + slot (r.level < op.level) r
  | un _ op e => e.wraps + slot (e.level < op.level) e
  | app _ f a =>
    f.wraps + a.wraps + slot (f.level < 9) f + slot (a.isApplication || a.level < 9) a
  | tapp _ f t => f.wraps + t.wraps + slot (f.level < 9) f
  | ascribe _ e t => e.wraps + t.wraps + slot (e.level < 9) e
  | proj _ e _ => e.wraps + slot (e.level < 10) e
  | var .. => 0
  | val .. => 0
  | list _ es => wrapsItems es
  | record _ fs => wrapsFields fs

def wrapsItems : List Expr → Nat
  | [] => 0
  | e :: es => e.wraps + wrapsItems es

def wrapsFields : List (String × Expr) → Nat
  | [] => 0
  | (_, e) :: fs => e.wraps + wrapsFields fs

end

theorem wrapsItems_eq (es : List Expr) : wrapsItems es = (es.map wraps).sum :=
  walk_eq_sum rfl (fun _ _ => rfl) es

theorem wrapsFields_eq (fs : List (String × Expr)) : wrapsFields fs = (fs.map (·.2.wraps)).sum :=
  walk_eq_sum rfl (fun _ _ => rfl) fs

theorem wrapsItems_add (es : List Expr) :
    wrapsItems es + lostItems es = (es.map fun e => e.wraps + e.lost).sum := by
  rw [wrapsItems_eq, lostItems_eq, List.sum_map_add]

theorem wrapsFields_add (fs : List (String × Expr)) :
    wrapsFields fs + lostFields fs = (fs.map fun f => f.2.wraps + f.2.lost).sum := by
  rw [wrapsFields_eq, lostFields_eq, List.sum_map_add]

section

variable {b b' : Bool} {e : Expr}

theorem slot_le_one : slot b e ≤ 1 := by
  unfold slot
  split_ifs <;> omega

theorem slot_mono (h : b = true → b' = true) : slot b e ≤ slot b' e := by
  cases b with
  | false => exact Nat.zero_le _
  | true => rw [h rfl]

theorem slot_of_isLambda (h : e.isLambda) : slot b e = 0 := by
  rw [slot, h, Bool.not_true, Bool.and_false]
  rfl

theorem slot_true (h : e.isLambda = false) : slot true e = 1 := by
  rw [slot, h]
  rfl

theorem level_of_isLambda (h : e.isLambda) : e.level = 0 := by
  cases e with
  | lam n x p body | tlam n x bs body => rfl
  | _ => cases h

end

/-- The next token would continue a type. -/
def startsType (ts : List Token) : Bool := ts.head?.any (·.kind ∈ Ty.startKinds)

theorem startsType_of_stops {ts : List Token} (h : Ty.Stops ts) : startsType ts = false := by
  cases ts with
  | nil => rfl
  | cons t ts => exact decide_eq_false (h t rfl)

/-- Only a lambda starts with a backslash. -/
theorem Reading.exists_head {k : Nat} {e : Expr} {ts rest : List Token} (h : Reading k e ts rest) :
    ∃ t us, ts = t :: us ∧ (t.kind = .backslash → k = 0 ∧ e.isLambda) := by
  have hother {t : Token} {κ : Kind} {P : Prop} (ht : t.kind = κ) (hκ : κ ≠ .backslash) :
      t.kind = .backslash → P := fun h => absurd (ht.symm.trans h) hκ
  induction h with
  | var ht | int ht _ | text ht => exact ⟨_, _, rfl, hother ht (by decide)⟩
  | @bool t b rest ht => exact ⟨_, _, rfl, hother ht (by cases b <;> decide)⟩
  | parens hl _ _ _ | list hl _ _ _ | record hl _ _ _ _ => exact ⟨_, _, rfl, hother hl (by decide)⟩
  | un op ht _ _ => exact ⟨_, _, rfl, hother ht (by cases op <;> decide)⟩
  | cond ht _ _ _ _ _ _ _ _ => exact ⟨_, _, rfl, hother ht (by decide)⟩
  | lam ht _ _ _ _ _ _ => exact ⟨_, _, rfl, fun _ => ⟨rfl, rfl⟩⟩
  | tlam ht _ _ _ _ => exact ⟨_, _, rfl, fun _ => ⟨rfl, rfl⟩⟩
  | proj _ _ _ ih | ascribe _ _ _ _ ih | tapp _ _ _ ih | app _ _ ih _ =>
    obtain ⟨t, us, rfl, ht⟩ := ih
    exact ⟨t, us, rfl, fun h => absurd (ht h).1 (by decide)⟩
  | bin op _ _ _ ih _ =>
    obtain ⟨t, us, rfl, ht⟩ := ih
    refine ⟨t, us, rfl, fun h => ?_⟩
    have := op.level_bounds
    have := (ht h).1
    omega
  | loosen _ ih =>
    obtain ⟨t, us, rfl, ht⟩ := ih
    exact ⟨t, us, rfl, fun h => absurd (ht h).1 (Nat.succ_ne_zero _)⟩

/-- An expression without annotation that starts with no token of a type starts with a literal. -/
theorem Reading.isLiteralPath {k : Nat} {e : Expr} {ts rest : List Token} (h : Reading k e ts rest)
    (hk : 11 ≤ k) (hts : startsType ts = false) : e.isLiteralPath := by
  have hstart {t : Token} {us : List Token} {κ : Kind} {P : Prop} (ht : t.kind = κ)
      (hκ : κ ∈ Ty.startKinds) (hts : startsType (t :: us) = false) : P :=
    absurd (ht ▸ hκ) (of_decide_eq_false hts)
  induction h with
  | var ht => exact hstart ht (by decide) hts
  | int _ _ | text _ | bool _ => rfl
  | parens hl _ _ _ | list hl _ _ _ | record hl _ _ _ _ => exact hstart hl (by decide) hts
  | proj _ _ _ ih => exact ih le_rfl hts
  | ascribe _ _ _ _ _ | tapp _ _ _ _ | app _ _ _ _ => omega
  | un op _ _ _ =>
    have := op.level_bounds
    omega
  | bin op _ _ _ _ _ =>
    have := op.level_bounds
    omega
  | cond _ _ _ _ _ _ _ _ _ | lam _ _ _ _ _ _ _ | tlam _ _ _ _ _ => omega
  | loosen _ ih => exact ih (by omega) hts

theorem startsLiteral_of_isLiteralPath {e : Expr} (h : e.isLiteralPath) : e.startsLiteral := by
  cases e with
  | ascribe n e t => cases h
  | _ => exact h

theorem Reading.startsLiteral {k : Nat} {e : Expr} {ts rest : List Token} (h : Reading k e ts rest)
    (hk : k = 10) (hts : startsType ts = false) : e.startsLiteral := by
  cases h with
  | ascribe he _ _ _ => exact he.isLiteralPath le_rfl hts
  | loosen he =>
    have hpath := he.isLiteralPath (by omega) hts
    exact startsLiteral_of_isLiteralPath hpath
  | un op _ _ | bin op _ _ _ =>
    have := op.level_bounds
    omega
  | _ => omega

/-- What the place of an argument needs is printed or lost. -/
theorem slot_argument {f a : Expr} {mid rest : List Token} (ha : Reading 10 a mid rest) :
    slot (f.level < 9) f + slot (a.isApplication || a.level < 9) a
      + (if f.endsOpen && !a.startsLiteral then 1 else 0)
      + (if a.isAscription && startsType rest then 1 else 0)
    ≤ slot (f.rank < 9 || f.endsOpen && startsType mid) f
      + slot (a.rank < 10 || a.endsOpen && startsType rest) a := by
  have hfn : slot (f.level < 9) f + (if f.endsOpen && !a.startsLiteral then 1 else 0)
      ≤ slot (f.rank < 9 || f.endsOpen && startsType mid) f := by
    by_cases hopen : f.endsOpen = true
    · -- an open function has no parentheses of its own
      have hrank : ¬f.rank < 9 := by
        rcases rank_of_endsOpen hopen with hr | ⟨hr, -⟩ <;> omega
      have hlevel : ¬f.level < 9 := by
        rwa [level_lt_iff (by omega) le_rfl]
      have hlambda : f.isLambda = false := by
        cases f with
        | app n f a | ascribe n e t => rfl
        | _ => cases hopen
      rw [decide_eq_false hlevel, decide_eq_false hrank, hopen, Bool.false_or, Bool.true_and,
        Bool.true_and]
      cases hliteral : a.startsLiteral with
      | true => exact Nat.zero_le _
      | false =>
        have hstart : startsType mid = true := by
          by_contra hnot
          have := ha.startsLiteral rfl (Bool.eq_false_iff.mpr hnot)
          rw [hliteral] at this
          cases this
        rw [hstart, slot_true hlambda]
        rfl
    · rw [if_neg (by simp [hopen]), Nat.add_zero]
      apply slot_mono
      intro h
      have hlevel := of_decide_eq_true h
      rw [level_lt_iff (by omega) le_rfl] at hlevel
      rw [decide_eq_true hlevel, Bool.true_or]
  have harg : slot (a.isApplication || a.level < 9) a
      + (if a.isAscription && startsType rest then 1 else 0)
      ≤ slot (a.rank < 10 || a.endsOpen && startsType rest) a := by
    by_cases hnote : a.isAscription = true
    · cases a with
      | ascribe n e t => simp [slot, isApplication, level, isAscription, rank, endsOpen, isLambda]
      | _ => cases hnote
    · rw [if_neg (by simp [hnote]), Nat.add_zero]
      apply slot_mono
      intro h
      have hrank : a.rank < 10 := by
        rcases Bool.or_eq_true_iff.mp h with happ | hlevel
        · cases a with
          | app n f a | tapp n f t => exact Nat.lt_succ_self 9
          | _ => cases happ
        · have hlevel := of_decide_eq_true hlevel
          rw [level_lt_iff (by omega) le_rfl] at hlevel
          omega
      rw [decide_eq_true hrank, Bool.true_or]
  omega

/-- What a part needs whose place is tighter than the printer takes it to be is printed or lost. -/
theorem slot_tight {e : Expr} {k m : Nat} (hk : 0 < k) (hm : e.level < k + 1 → e.rank < m) (o : Bool) :
    slot (e.level < k) e + (if e.level = k then 1 else 0) ≤ slot (e.rank < m || o) e := by
  by_cases heq : e.level = k
  · have hlambda : e.isLambda = false := by
      rw [Bool.eq_false_iff]
      intro h
      have := level_of_isLambda h
      omega
    have hrank : e.rank < m := hm (by omega)
    rw [if_pos heq, decide_eq_false (by omega), decide_eq_true hrank, Bool.true_or, slot_true hlambda]
    rfl
  · rw [if_neg heq, Nat.add_zero]
    apply slot_mono
    intro h
    have hlevel := of_decide_eq_true h
    have hrank : e.rank < m := hm (by omega)
    rw [decide_eq_true hrank, Bool.true_or]

/-- What a part needs is printed if the printer knows its place. -/
theorem slot_printed {e : Expr} {k m : Nat} (hm : e.level < k → e.rank < m) (o : Bool) :
    slot (e.level < k) e ≤ slot (e.rank < m || o) e := by
  apply slot_mono
  intro h
  rw [decide_eq_true (hm (of_decide_eq_true h)), Bool.true_or]

/-- Nothing is needed at an expression's own level. -/
theorem slot_own {e : Expr} {k : Nat} (hrank : ¬e.rank < k) (hopen : e.endsOpen = false) (o : Bool) :
    slot (e.rank < k || e.endsOpen && o) e = 0 := by
  rw [decide_eq_false hrank, hopen, Bool.false_and]
  rfl

/-- Each pair that a printed expression has or lost stands in the tokens, and one more around an
expression that is read at a tighter level than its own, or that ends with a type which the next
token would continue. -/
theorem Reading.pairs_le {k : Nat} {e : Expr} {ts rest : List Token} (h : Reading k e ts rest) :
    Token.pairs rest + e.wraps + e.lost + slot (e.rank < k || e.endsOpen && startsType rest) e
      ≤ Token.pairs ts := by
  induction h with
  | var ht | int ht _ | text ht =>
    rw [Token.pairs_cons (ht ▸ by decide)]
    exact le_rfl
  | @bool t b rest ht =>
    rw [Token.pairs_cons (by rw [ht]; cases b <;> decide)]
    exact le_rfl
  | @parens l r e ts rest hl he hr ih =>
    rw [Token.pairs_cons (hr ▸ by decide)] at ih
    obtain ⟨t, us, rfl, ht⟩ := he.exists_head
    have hl' : Token.pairs (l :: t :: us) = TraitCalculus.pairs (.lparen :: (t :: us).map (·.kind)) := by
      rw [Token.pairs, List.map_cons, hl]
    by_cases hlambda : e.isLambda = true
    · -- the parentheses of a lambda count nowhere
      have hle : Token.pairs (t :: us) ≤ Token.pairs (l :: t :: us) := Nat.le_add_left _ _
      rw [slot_of_isLambda hlambda] at ih ⊢
      omega
    · have hhead : ((t :: us).map (·.kind)).head? ≠ some .backslash :=
        fun h => hlambda (ht (Option.some.inj h)).2
      have hone : slot (e.rank < 12 || e.endsOpen && startsType rest) e ≤ 1 := slot_le_one
      rw [hl', pairs_lparen hhead]
      have hsame : Token.pairs (t :: us) = TraitCalculus.pairs ((t :: us).map (·.kind)) := rfl
      omega
  | @list l es ts rest hl hes _ ih =>
    have hitems := pairs_listed (g := fun e => e.wraps + e.lost) hes (by decide)
      (fun _ _ _ h => congrArg Token.pairs h) fun e he => by
        have := ih e he
        omega
    have hsum := wrapsItems_add (es.map (·.1))
    rw [List.map_map] at hsum
    simp only [Function.comp_def] at hsum
    rw [Token.pairs_cons (hl ▸ by decide), slot_own (lt_irrefl 12) rfl, wraps, lost]
    omega
  | @record l fs ts rest hl hfs _ _ ih =>
    have hitems := pairs_listed (g := fun f => f.2.wraps + f.2.lost) hfs (by decide)
      (pairs_labelled (by decide)) fun f hf => by
        have := ih f hf
        omega
    have hsum := wrapsFields_add (fs.map (·.1))
    rw [List.map_map] at hsum
    simp only [Function.comp_def] at hsum
    rw [Token.pairs_cons (hl ▸ by decide), slot_own (lt_irrefl 12) rfl, wraps, lost]
    omega
  | @proj line d l e ts rest _ hd hl ih =>
    rw [Token.pairs_cons (hd ▸ by decide), Token.pairs_cons (hl ▸ by decide)] at ih
    have hslot := slot_printed (e := e) (k := 10) (m := 11) level_lt_ten_iff.mp
      (e.endsOpen && startsType (d :: l :: rest))
    rw [slot_own (lt_irrefl 11) rfl, wraps, lost]
    omega
  | @ascribe line c e t ts mid rest _ hc ht hstop ih =>
    rw [Token.pairs_cons (hc ▸ by decide)] at ih
    have htype := ht.pairs_le
    have hslot := slot_tight (e := e) (k := 9) (m := 11) (by omega) level_lt_ten_iff.mp
      (e.endsOpen && startsType (c :: mid))
    -- the annotation is open, but the next token does not continue its type
    have hclosed : slot ((Expr.ascribe (.atLine line) e t).rank < 10 ||
        (Expr.ascribe (.atLine line) e t).endsOpen && false) (Expr.ascribe (.atLine line) e t) = 0 := rfl
    rw [startsType_of_stops hstop, hclosed, wraps, lost]
    omega
  | @app line f a ts mid rest _ ha ihf iha =>
    have hslot := slot_argument (f := f) ha
    have hown : slot ((Expr.app (.atLine line) f a).rank < 9 ||
        (Expr.app (.atLine line) f a).endsOpen && startsType rest) (Expr.app (.atLine line) f a) =
          if a.isAscription && startsType rest then 1 else 0 := by
      simp [slot, rank, endsOpen, isLambda]
    rw [hown, wraps, lost]
    omega
  | @tapp line at' f t ts mid rest _ hat ht ih =>
    rw [Token.pairs_cons (hat ▸ by decide)] at ih
    have htype := ht.pairs_le
    have hslot := slot_printed (e := f) (k := 9) (m := 9) (level_lt_iff (by omega) le_rfl).mp
      (f.endsOpen && startsType (at' :: mid))
    rw [slot_own (lt_irrefl 9) rfl, wraps, lost]
    omega
  | @un line t e ts rest op ht _ ih =>
    obtain ⟨hlow, hhigh⟩ := op.level_bounds
    have hslot := slot_printed (e := e) (k := op.level) (m := op.level)
      (level_lt_iff hlow (by omega)).mp (e.endsOpen && startsType rest)
    rw [Token.pairs_cons (by rw [ht]; cases op <;> decide), slot_own (lt_irrefl op.level) rfl, wraps,
      lost]
    omega
  | @bin line t l r ts mid rest op _ ht _ ihl ihr =>
    obtain ⟨hlow, hhigh⟩ := op.level_bounds
    rw [Token.pairs_cons (by rw [ht]; cases op <;> decide)] at ihl
    have hleft := slot_printed (e := l) (k := op.level) (m := op.level)
      (level_lt_iff hlow (by omega)).mp (l.endsOpen && startsType (t :: mid))
    have hright := slot_tight (e := r) (k := op.level) (m := op.level + 1) (by omega)
      (level_lt_iff (by omega) (by omega)).mp (r.endsOpen && startsType rest)
    rw [slot_own (lt_irrefl op.level) rfl, wraps, lost]
    omega
  | cond ht _ hu _ hv _ ihc ihy ihz =>
    rw [Token.pairs_cons (hu ▸ by decide)] at ihc
    rw [Token.pairs_cons (hv ▸ by decide)] at ihy
    rw [Token.pairs_cons (ht ▸ by decide), slot_own (lt_irrefl 0) rfl, wraps, lost]
    omega
  | lam ht hx hc hu hd _ ih =>
    have htype := hu.pairs_le
    rw [Token.pairs_cons (hd ▸ by decide)] at htype
    rw [Token.pairs_cons (ht ▸ by decide), Token.pairs_cons (hx ▸ by decide),
      Token.pairs_cons (hc ▸ by decide), slot_own (lt_irrefl 0) rfl, wraps, lost]
    simp only [Param.wraps, Param.lost]
    omega
  | tlam ht hx hbs _ ih =>
    rw [Token.pairs_cons (ht ▸ by decide), Token.pairs_cons (hx ▸ by decide), pairs_bounded hbs,
      slot_own (lt_irrefl 0) rfl, wraps, lost]
    omega
  | @loosen k e ts rest _ ih =>
    have hslot : slot (e.rank < k || e.endsOpen && startsType rest) e
        ≤ slot (e.rank < k + 1 || e.endsOpen && startsType rest) e := by
      apply slot_mono
      intro h
      rcases Bool.or_eq_true_iff.mp h with hrank | hopen
      · have := of_decide_eq_true hrank
        rw [decide_eq_true (by omega), Bool.true_or]
      · rw [hopen, Bool.or_true]
    omega

end Expr

end TraitCalculus
