import TraitCalculus.Proofs.WrittenExpressions

/-! Readings: which tokens a parser takes for the result it returns. The relation between a tree and
the tokens before and behind it follows the levels of the parser. Separators that may be left out are
left open in it. -/
namespace TraitCalculus

namespace Parser

variable {α β : Type}

/-- Whenever the parser succeeds on these tokens, its result and the tokens it leaves satisfy `Q`. -/
def After (finish : Token) (p : Parser α) (ts : List Token) (Q : α → List Token → Prop) : Prop :=
  ∀ a rest, p finish ts = .ok (a, rest) → Q a rest

/-- These tokens, or those behind the first if it has the kind `k`. -/
inductive Skips (k : Kind) : List Token → List Token → Prop
  | keep (ts : List Token) : Skips k ts ts
  | skip {t : Token} {ts : List Token} : t.kind = k → Skips k (t :: ts) ts

/-- Items up to the closing token, each behind its lead and in front of a comma that may be left out.
Each item comes with the tokens it starts and stops at. -/
inductive Listed (lead : α → List Token → List Token → Prop) (close : Kind) :
    List (α × List Token × List Token) → List Token → List Token → Prop
  | nil {t : Token} {rest : List Token} : t.kind = close → Listed lead close [] (t :: rest) rest
  | cons {a : α} {ts start stop us rest : List Token} {items : List (α × List Token × List Token)} :
    lead a ts start → Skips .comma stop us → Listed lead close items us rest →
      Listed lead close ((a, start, stop) :: items) ts rest

/-- A label and the sign behind it. -/
def Labelled (sign : Kind) (f : String × α) (ts start : List Token) : Prop :=
  ∃ l c : Token, l.kind = .ident ∧ l.text = f.1 ∧ c.kind = sign ∧ ts = l :: c :: start

/-- Names up to a dot, which stays. -/
inductive Named : List String → List Token → List Token → Prop
  | nil {t : Token} {rest : List Token} : t.kind = .dot → Named [] (t :: rest) (t :: rest)
  | cons {x : Token} {ts us rest : List Token} {xs : List String} :
    x.kind = .ident → Skips .add ts us → Named xs us rest → Named (x.text :: xs) (x :: ts) rest

/-- Trait bounds and the dot behind them. -/
inductive Bounded : List String → List Token → List Token → Prop
  | none {d : Token} {rest : List Token} : d.kind = .dot → Bounded [] (d :: rest) rest
  | some {i d : Token} {bs : List String} {ts rest : List Token} :
    i.kind = .implWord → Named bs ts (d :: rest) → d.kind = .dot → Bounded bs (i :: ts) rest

section

variable {finish : Token} {ts : List Token} {p : Parser α} {Q : α → List Token → Prop}
  {S : β → List Token → Prop} {f : α → Parser β}

theorem After.imp {Q' : α → List Token → Prop} (h : After finish p ts Q)
    (hQ : ∀ a rest, Q a rest → Q' a rest) : After finish p ts Q' :=
  fun a rest hrun => hQ a rest (h a rest hrun)

theorem after_pure {a : α} (h : Q a ts) : After finish (Pure.pure a) ts Q := by
  intro b rest hrun
  obtain ⟨rfl, rfl⟩ : a = b ∧ ts = rest := by
    simpa [Pure.pure, Parser.pure] using hrun
  exact h

theorem After.bind (h : After finish p ts Q)
    (h' : ∀ a mid, Q a mid → After finish (f a) mid S) : After finish (p >>= f) ts S := by
  intro b rest hrun
  obtain ⟨a, mid, hp, hf⟩ := exists_of_bind_eq_ok hrun
  exact h' a mid (h a mid hp) b rest hf

theorem after_fail (e : ParseError) : After finish (fail e) ts Q :=
  fun _ _ hrun => nomatch hrun

theorem after_refuse (kinds : List Kind) : After finish (refuse kinds) ts Q :=
  fun _ _ hrun => nomatch hrun

theorem after_next_cons {t : Token} {f : Token → Parser β} (h : After finish (f t) ts S) :
    After finish (next >>= f) (t :: ts) S := h

theorem after_peek {f : Token → Parser β} (h : After finish (f (ts.headD finish)) ts S) :
    After finish (peek >>= f) ts S := h

theorem after_kind {f : Kind → Parser β} (h : After finish (f (ts.headD finish).kind) ts S) :
    After finish (kind >>= f) ts S := by
  cases ts <;> exact h

/-- A token of another kind than the last one is there. -/
theorem exists_cons_of_kind (hfinish : finish.kind = .finish) {k : Kind}
    (h : (ts.headD finish).kind = k) (hk : k ≠ .finish) : ∃ t us, ts = t :: us ∧ t.kind = k := by
  cases ts with
  | nil => exact absurd (h.symm.trans hfinish) hk
  | cons t us => exact ⟨t, us, rfl, h⟩

/-- A token that is demanded was there. -/
theorem after_expect (hfinish : finish.kind = .finish) {k : Kind} (hk : k ≠ .finish)
    {f : Token → Parser β} (h : ∀ t us, ts = t :: us → t.kind = k → After finish (f t) us S) :
    After finish (expect [k] >>= f) ts S := by
  intro b rest hrun
  obtain ⟨t, mid, hexpect, hf⟩ := exists_of_bind_eq_ok hrun
  unfold expect Token.check at hexpect
  split_ifs at hexpect with hmem
  obtain ⟨rfl, rfl⟩ : ts.headD finish = t ∧ ts.drop 1 = mid := by
    simpa using hexpect
  obtain ⟨t, us, rfl, ht⟩ := exists_cons_of_kind hfinish (List.mem_singleton.mp hmem) hk
  exact h t us rfl ht b rest hf

theorem after_ident (hfinish : finish.kind = .finish) {f : String → Parser β}
    (h : ∀ t us, ts = t :: us → t.kind = .ident → After finish (f t.text) us S) :
    After finish (ident >>= f) ts S := by
  have hident : After finish ident ts fun x us => ∃ t, ts = t :: us ∧ t.kind = .ident ∧ x = t.text :=
    after_expect hfinish (by decide) fun t us hts ht => after_pure ⟨t, hts, ht, rfl⟩
  refine hident.bind ?_
  rintro x us ⟨t, hts, ht, rfl⟩
  exact h t us hts ht

theorem after_skipIf (hfinish : finish.kind = .finish) {k : Kind} (hk : k ≠ .finish)
    {f : Unit → Parser β} (h : ∀ us, Skips k ts us → After finish (f ()) us S) :
    After finish (skipIf k >>= f) ts S := by
  refine h _ ?_
  cases ts with
  | nil =>
    have hkind : (([] : List Token).headD finish).kind ≠ k := by
      rw [List.headD_nil, hfinish]
      exact hk.symm
    rw [if_neg hkind]
    exact .keep []
  | cons t us =>
    by_cases ht : t.kind = k
    · rw [if_pos (show ((t :: us).headD finish).kind = k from ht)]
      exact .skip ht
    · rw [if_neg (show ¬((t :: us).headD finish).kind = k from ht)]
      exact .keep (t :: us)

/-- A look at the next kind decides between two parsers, of which the first takes this kind. -/
theorem after_kind_ite (hfinish : finish.kind = .finish) {k : Kind} (hk : k ≠ .finish)
    {p q : Parser β} (hp : ∀ t us, ts = t :: us → t.kind = k → After finish p (t :: us) S)
    (hq : After finish q ts S) :
    After finish (kind >>= fun k' => if k' = k then p else q) ts S := by
  cases ts with
  | nil =>
    show After finish (if finish.kind = k then p else q) [] S
    rw [hfinish, if_neg hk.symm]
    exact hq
  | cons t us =>
    show After finish (if t.kind = k then p else q) (t :: us) S
    split_ifs with ht
    · exact hp t us rfl ht
    · exact hq

theorem after_boundList (hfinish : finish.kind = .finish) (done : List String) (n : Nat)
    (ts : List Token) : After finish (boundList done n) ts fun bs rest =>
      ∃ xs, bs = done.reverse ++ xs ∧ Named xs ts rest := by
  induction n generalizing done ts with
  | zero => exact after_fail _
  | succ n ih =>
    unfold boundList
    refine after_kind_ite hfinish (by decide) ?_ ?_
    · rintro t us rfl ht
      exact after_pure ⟨[], (List.append_nil _).symm, .nil ht⟩
    · refine after_ident hfinish ?_
      rintro x us rfl hx
      refine after_skipIf hfinish (by decide) fun vs hvs => ?_
      refine (ih (x.text :: done) vs).imp ?_
      rintro bs rest ⟨xs, rfl, hxs⟩
      exact ⟨x.text :: xs, by simp, .cons hx hvs hxs⟩

theorem after_bounds (hfinish : finish.kind = .finish) (n : Nat) (ts : List Token) :
    After finish (bounds n) ts fun bs rest => Bounded bs ts rest := by
  unfold bounds
  refine after_kind_ite hfinish (by decide) ?_ ?_
  · rintro i us rfl hi
    refine after_next_cons ((after_boundList hfinish [] n us).bind ?_)
    rintro bs mid ⟨xs, rfl, hxs⟩
    refine after_expect hfinish (by decide) ?_
    rintro d vs rfl hd
    exact after_pure (.some hi hxs hd)
  · refine after_expect hfinish (by decide) ?_
    rintro d us rfl hd
    exact after_pure (.none hd)

theorem after_labelled {sign : Kind} {R : α → List Token → List Token → Prop}
    (hfinish : finish.kind = .finish) (hsign : sign ≠ .finish)
    (hp : ∀ ts, After finish p ts (R · ts ·)) (done : List (String × α))
    (hdone : (done.map (·.1)).Nodup) (n : Nat) (ts : List Token) :
    After finish (labelled sign p done n) ts fun gs rest =>
      ∃ fs, gs = done.reverse ++ fs.map (·.1) ∧ Listed (Labelled sign) .rbrace fs ts rest ∧
        (gs.map (·.1)).Nodup ∧ ∀ f ∈ fs, R f.1.2 f.2.1 f.2.2 := by
  induction n generalizing done ts with
  | zero => exact after_fail _
  | succ n ih =>
    unfold labelled
    refine after_kind_ite hfinish (by decide) ?_ ?_
    · rintro t us rfl ht
      refine after_next_cons (after_pure ⟨[], (List.append_nil _).symm, .nil ht, ?_, by simp⟩)
      rw [List.map_reverse, List.nodup_reverse]
      exact hdone
    · refine after_expect hfinish (by decide) ?_
      rintro l us rfl hl
      split_ifs with hold
      · exact after_fail _
      refine after_expect hfinish hsign ?_
      rintro c vs rfl hc
      refine (hp vs).bind fun a stop ha => ?_
      refine after_skipIf hfinish (by decide) fun next hnext => ?_
      have hnew : l.text ∉ done.map (·.1) := by
        simpa using hold
      refine (ih ((l.text, a) :: done) (List.nodup_cons.mpr ⟨hnew, hdone⟩) next).imp ?_
      rintro gs rest ⟨fs, rfl, hfs, hlabels, hread⟩
      refine ⟨((l.text, a), vs, stop) :: fs, by simp, ?_, hlabels, ?_⟩
      · exact .cons ⟨l, c, hl, rfl, hc, rfl⟩ hnext hfs
      · exact List.forall_mem_cons.mpr ⟨ha, hread⟩

end

end Parser

namespace Ty

open TraitCalculus.Parser

/-- The type is read at the level `k` from the first tokens, and the others are left. -/
inductive Reading : Nat → Ty → List Token → List Token → Prop
  | name {t : Token} {rest : List Token} :
    t.kind = .ident → Reading 3 (name t.line t.text) (t :: rest) rest
  | parens {l r : Token} {u : Ty} {ts rest : List Token} :
    l.kind = .lparen → Reading 0 u ts (r :: rest) → r.kind = .rparen → Reading 3 u (l :: ts) rest
  | list {l r : Token} {u : Ty} {ts rest : List Token} :
    l.kind = .lbracket → Reading 0 u ts (r :: rest) → r.kind = .rbracket →
      Reading 3 (list l.line u) (l :: ts) rest
  | record {l : Token} {fs : List ((String × Ty) × List Token × List Token)}
      {ts rest : List Token} (hl : l.kind = .lbrace) (hfs : Listed (Labelled .colon) .rbrace fs ts rest)
      (hlabels : (fs.map (·.1.1)).Nodup) :
    (∀ f ∈ fs, Reading 0 f.1.2 f.2.1 f.2.2) →
      Reading 3 (record l.line (fs.map (·.1))) (l :: ts) rest
  | app {line : Nat} {f a : Ty} {ts mid rest : List Token} :
    Reading 2 f ts mid → Reading 3 a mid rest → Reading 2 (app line f a) ts rest
  | arrow {line : Nat} {t : Token} {d c : Ty} {ts mid rest : List Token} :
    Reading 2 d ts (t :: mid) → t.kind = .arrow → Reading 1 c mid rest →
      Reading 1 (arrow line d c) ts rest
  | all {t x : Token} {bs : List String} {u : Ty} {ts mid rest : List Token} :
    t.kind = .forallWord → x.kind = .ident → Bounded bs ts mid → Reading 0 u mid rest →
      Reading 0 (all t.line x.text bs u) (t :: x :: ts) rest
  | loosen {k : Nat} {u : Ty} {ts rest : List Token} : Reading (k + 1) u ts rest → Reading k u ts rest

/-- The next token does not start an argument. -/
def Stops (ts : List Token) : Prop := ∀ t ∈ ts.head?, t.kind ∉ startKinds

variable {finish : Token} {ty : Parser Ty}

theorem after_unapplied (hfinish : finish.kind = .finish)
    (hty : ∀ ts, After finish ty ts (Reading 0 · ts ·)) (n : Nat) (ts : List Token) :
    After finish (unapplied ty n) ts (Reading 3 · ts ·) := by
  unfold unapplied
  refine after_peek ?_
  split
  · obtain ⟨t, us, rfl, ht⟩ := exists_cons_of_kind hfinish ‹_› (by decide)
    exact after_next_cons (after_pure (Reading.name ht))
  · obtain ⟨l, us, rfl, hl⟩ := exists_cons_of_kind hfinish ‹_› (by decide)
    refine after_next_cons ((hty us).bind fun u mid hu => ?_)
    refine after_expect hfinish (by decide) ?_
    rintro r rest rfl hr
    exact after_pure (Reading.parens hl hu hr)
  · obtain ⟨l, us, rfl, hl⟩ := exists_cons_of_kind hfinish ‹_› (by decide)
    refine after_next_cons ((hty us).bind fun u mid hu => ?_)
    refine after_expect hfinish (by decide) ?_
    rintro r rest rfl hr
    exact after_pure (Reading.list hl hu hr)
  · obtain ⟨l, us, rfl, hl⟩ := exists_cons_of_kind hfinish ‹_› (by decide)
    rw [fieldList_eq]
    refine after_next_cons ((after_labelled hfinish (by decide) hty [] List.nodup_nil n us).bind ?_)
    rintro gs rest ⟨fs, rfl, hfs, hlabels, hread⟩
    refine after_pure (Reading.record hl hfs ?_ hread)
    rw [List.reverse_nil, List.nil_append, List.map_map] at hlabels
    exact hlabels
  · exact after_refuse _

/-- Arguments are taken as long as there are any. -/
theorem after_arguments (hfinish : finish.kind = .finish)
    (hty : ∀ ts, After finish ty ts (Reading 0 · ts ·)) (bound line : Nat) {fn : Ty}
    {ts mid : List Token} (hfn : Reading 2 fn ts mid) (n : Nat) :
    After finish (arguments ty bound line fn n) mid fun t rest => Reading 2 t ts rest ∧ Stops rest := by
  induction n generalizing fn mid with
  | zero => exact after_fail _
  | succ n ih =>
    rw [arguments_succ]
    cases mid with
    | nil =>
      show After finish (if finish.kind ∈ startKinds then _ else _) [] _
      rw [hfinish, if_neg (by decide)]
      exact after_pure ⟨hfn, nofun⟩
    | cons t us =>
      show After finish (if t.kind ∈ startKinds then _ else _) (t :: us) _
      split_ifs with ht
      · refine (after_unapplied hfinish hty bound (t :: us)).bind fun arg rest harg => ?_
        exact ih (hfn.app harg)
      · refine after_pure ⟨hfn, fun u hu => ?_⟩
        obtain rfl : t = u := Option.some.inj hu
        exact ht

theorem after_applied (hfinish : finish.kind = .finish)
    (hty : ∀ ts, After finish ty ts (Reading 0 · ts ·)) (n : Nat) (ts : List Token) :
    After finish (applied ty n) ts fun t rest => Reading 2 t ts rest ∧ Stops rest := by
  unfold applied
  refine after_peek ((after_unapplied hfinish hty n ts).bind fun fn mid hfn => ?_)
  exact after_arguments hfinish hty n _ hfn.loosen n

theorem after_function (hfinish : finish.kind = .finish)
    (hty : ∀ ts, After finish ty ts (Reading 0 · ts ·)) (bound n : Nat) (ts : List Token) :
    After finish (function ty bound n) ts fun t rest => Reading 1 t ts rest ∧ Stops rest := by
  induction n generalizing ts with
  | zero => exact after_fail _
  | succ n ih =>
    rw [function_succ]
    refine after_peek ((after_applied hfinish hty bound ts).bind fun dom mid hdom => ?_)
    refine after_kind_ite hfinish (by decide) ?_ (after_pure ⟨hdom.1.loosen, hdom.2⟩)
    rintro t us rfl ht
    refine after_next_cons ((ih us).bind fun cod rest hcod => ?_)
    exact after_pure ⟨hdom.1.arrow ht hcod.1, hcod.2⟩

theorem after_step (hfinish : finish.kind = .finish)
    (hty : ∀ ts, After finish ty ts fun t rest => Reading 0 t ts rest ∧ Stops rest) (n : Nat)
    (ts : List Token) : After finish (step ty n) ts fun t rest => Reading 0 t ts rest ∧ Stops rest := by
  have hread (ts : List Token) : After finish ty ts (Reading 0 · ts ·) :=
    (hty ts).imp fun _ _ h => h.1
  unfold step
  refine after_peek ?_
  split_ifs with hforall
  · obtain ⟨t, us, rfl, ht⟩ := exists_cons_of_kind hfinish hforall (by decide)
    refine after_next_cons (after_ident hfinish ?_)
    rintro x vs rfl hx
    refine (after_bounds hfinish n vs).bind fun bs mid hbs => ?_
    refine (hty mid).bind fun body rest hbody => ?_
    exact after_pure ⟨Reading.all ht hx hbs hbody.1, hbody.2⟩
  · exact (after_function hfinish hread n n ts).imp fun _ _ h => ⟨h.1.loosen, h.2⟩

/-- What the parser returns is read from the tokens it takes, up to one that starts no argument. -/
theorem parser_after (hfinish : finish.kind = .finish) (n : Nat) (ts : List Token) :
    After finish (parser n) ts fun t rest => Reading 0 t ts rest ∧ Stops rest := by
  induction n generalizing ts with
  | zero => exact after_fail _
  | succ n ih => exact after_step hfinish ih n ts

end Ty

namespace Expr

open TraitCalculus.Parser

/-- The expression is read at the level `k` from the first tokens, and the others are left. Behind an
annotation nothing is left that would continue its type. -/
inductive Reading : Nat → Expr → List Token → List Token → Prop
  | var {t : Token} {rest : List Token} :
    t.kind = .ident → Reading 12 (var (.atLine t.line) t.text) (t :: rest) rest
  | int {t : Token} {i : Int} {rest : List Token} :
    t.kind = .number → Text.readInteger t.text = .ok i →
      Reading 12 (val (.atLine t.line) (.int i)) (t :: rest) rest
  | text {t : Token} {rest : List Token} :
    t.kind = .string → Reading 12 (val (.atLine t.line) (.text t.text)) (t :: rest) rest
  | bool {t : Token} {b : Bool} {rest : List Token} :
    t.kind = (boolWord b).1 → Reading 12 (val (.atLine t.line) (.bool b)) (t :: rest) rest
  | parens {l r : Token} {e : Expr} {ts rest : List Token} :
    l.kind = .lparen → Reading 0 e ts (r :: rest) → r.kind = .rparen → Reading 12 e (l :: ts) rest
  | list {l : Token} {es : List (Expr × List Token × List Token)} {ts rest : List Token}
      (hl : l.kind = .lbracket) (hes : Listed (fun _ ts start => ts = start) .rbracket es ts rest) :
    (∀ e ∈ es, Reading 0 e.1 e.2.1 e.2.2) →
      Reading 12 (list (.atLine l.line) (es.map (·.1))) (l :: ts) rest
  | record {l : Token} {fs : List ((String × Expr) × List Token × List Token)}
      {ts rest : List Token} (hl : l.kind = .lbrace) (hfs : Listed (Labelled .assign) .rbrace fs ts rest)
      (hlabels : (fs.map (·.1.1)).Nodup) :
    (∀ f ∈ fs, Reading 0 f.1.2 f.2.1 f.2.2) →
      Reading 12 (record (.atLine l.line) (fs.map (·.1))) (l :: ts) rest
  | proj {line : Nat} {d l : Token} {e : Expr} {ts rest : List Token} :
    Reading 11 e ts (d :: l :: rest) → d.kind = .dot → l.kind = .ident →
      Reading 11 (proj (.atLine line) e l.text) ts rest
  | ascribe {line : Nat} {c : Token} {e : Expr} {t : Ty} {ts mid rest : List Token} :
    Reading 11 e ts (c :: mid) → c.kind = .colon → Ty.Reading 0 t mid rest → Ty.Stops rest →
      Reading 10 (ascribe (.atLine line) e t) ts rest
  | app {line : Nat} {f a : Expr} {ts mid rest : List Token} :
    Reading 9 f ts mid → Reading 10 a mid rest → Reading 9 (app (.atLine line) f a) ts rest
  | tapp {line : Nat} {a : Token} {f : Expr} {t : Ty} {ts mid rest : List Token} :
    Reading 9 f ts (a :: mid) → a.kind = .atSign → Ty.Reading 3 t mid rest →
      Reading 9 (tapp (.atLine line) f t) ts rest
  | un {line : Nat} {t : Token} {e : Expr} {ts rest : List Token} (op : UnOp) :
    t.kind = op.kind → Reading op.level e ts rest →
      Reading op.level (un (.atLine line) op e) (t :: ts) rest
  | bin {line : Nat} {t : Token} {l r : Expr} {ts mid rest : List Token} (op : BinOp) :
    Reading op.level l ts (t :: mid) → t.kind = op.kind → Reading (op.level + 1) r mid rest →
      Reading op.level (bin (.atLine line) op l r) ts rest
  | cond {t u v : Token} {c y z : Expr} {ts ts' ts'' rest : List Token} :
    t.kind = .ifWord → Reading 0 c ts (u :: ts') → u.kind = .thenWord → Reading 0 y ts' (v :: ts'') →
      v.kind = .elseWord → Reading 0 z ts'' rest →
      Reading 0 (cond (.atLine t.line) c y z) (t :: ts) rest
  | lam {t x c d : Token} {u : Ty} {e : Expr} {ts mid rest : List Token} :
    t.kind = .backslash → x.kind = .ident → c.kind = .colon → Ty.Reading 0 u ts (d :: mid) →
      d.kind = .dot → Reading 0 e mid rest →
      Reading 0 (lam (.atLine t.line) x.text (.typed u) e) (t :: x :: c :: ts) rest
  | tlam {t x : Token} {bs : List String} {e : Expr} {ts mid rest : List Token} :
    t.kind = .backslash → x.kind = .ident → Bounded bs ts mid → Reading 0 e mid rest →
      Reading 0 (tlam (.atLine t.line) x.text bs e) (t :: x :: ts) rest
  | loosen {k : Nat} {e : Expr} {ts rest : List Token} : Reading (k + 1) e ts rest → Reading k e ts rest

variable {finish : Token} {expr operand : Parser Expr} {ty : Parser Ty}

theorem after_elementList (hfinish : finish.kind = .finish)
    (hexpr : ∀ ts, After finish expr ts (Reading 0 · ts ·)) (done : List Expr) (n : Nat)
    (ts : List Token) : After finish (elementList expr done n) ts fun gs rest =>
      ∃ es, gs = done.reverse ++ es.map (·.1) ∧
        Listed (fun _ ts start => ts = start) .rbracket es ts rest ∧
        ∀ e ∈ es, Reading 0 e.1 e.2.1 e.2.2 := by
  induction n generalizing done ts with
  | zero => exact after_fail _
  | succ n ih =>
    unfold elementList
    refine after_kind_ite hfinish (by decide) ?_ ?_
    · rintro t us rfl ht
      exact after_next_cons (after_pure ⟨[], (List.append_nil _).symm, .nil ht, by simp⟩)
    · refine (hexpr ts).bind fun e stop he => ?_
      refine after_skipIf hfinish (by decide) fun next hnext => ?_
      refine (ih (e :: done) next).imp ?_
      rintro gs rest ⟨es, rfl, hes, hread⟩
      refine ⟨(e, ts, stop) :: es, by simp, .cons rfl hnext hes, ?_⟩
      exact List.forall_mem_cons.mpr ⟨he, hread⟩

theorem after_atom (hfinish : finish.kind = .finish)
    (hexpr : ∀ ts, After finish expr ts (Reading 0 · ts ·)) (n : Nat) (ts : List Token) :
    After finish (atom expr n) ts (Reading 12 · ts ·) := by
  unfold atom
  refine after_peek ?_
  split
  · obtain ⟨t, us, rfl, ht⟩ := exists_cons_of_kind hfinish ‹_› (by decide)
    exact after_next_cons (after_pure (Reading.var ht))
  · obtain ⟨t, us, rfl, ht⟩ := exists_cons_of_kind hfinish ‹_› (by decide)
    refine after_next_cons ?_
    split
    · exact after_fail _
    · exact after_pure (Reading.int ht ‹_›)
  · obtain ⟨t, us, rfl, ht⟩ := exists_cons_of_kind hfinish ‹_› (by decide)
    exact after_next_cons (after_pure (Reading.text ht))
  · obtain ⟨t, us, rfl, ht⟩ := exists_cons_of_kind hfinish ‹_› (by decide)
    exact after_next_cons (after_pure (Reading.bool (b := true) ht))
  · obtain ⟨t, us, rfl, ht⟩ := exists_cons_of_kind hfinish ‹_› (by decide)
    exact after_next_cons (after_pure (Reading.bool (b := false) ht))
  · obtain ⟨l, us, rfl, hl⟩ := exists_cons_of_kind hfinish ‹_› (by decide)
    refine after_next_cons ((hexpr us).bind fun e mid he => ?_)
    refine after_expect hfinish (by decide) ?_
    rintro r rest rfl hr
    exact after_pure (Reading.parens hl he hr)
  · obtain ⟨l, us, rfl, hl⟩ := exists_cons_of_kind hfinish ‹_› (by decide)
    refine after_next_cons ((after_elementList hfinish hexpr [] n us).bind ?_)
    rintro gs rest ⟨es, rfl, hes, hread⟩
    exact after_pure (Reading.list hl hes hread)
  · obtain ⟨l, us, rfl, hl⟩ := exists_cons_of_kind hfinish ‹_› (by decide)
    rw [fieldList_eq]
    refine after_next_cons ((after_labelled hfinish (by decide) hexpr [] List.nodup_nil n us).bind ?_)
    rintro gs rest ⟨fs, rfl, hfs, hlabels, hread⟩
    refine after_pure (Reading.record hl hfs ?_ hread)
    rw [List.reverse_nil, List.nil_append, List.map_map] at hlabels
    exact hlabels
  · exact after_refuse _

theorem after_projections (hfinish : finish.kind = .finish) (line : Nat) {e : Expr}
    {ts mid : List Token} (he : Reading 11 e ts mid) (n : Nat) :
    After finish (projections line e n) mid (Reading 11 · ts ·) := by
  induction n generalizing e mid with
  | zero => exact after_fail _
  | succ n ih =>
    unfold projections
    refine after_kind_ite hfinish (by decide) ?_ (after_pure he)
    rintro d us rfl hd
    refine after_next_cons (after_ident hfinish ?_)
    rintro l rest rfl hl
    exact ih (he.proj hd hl)

theorem after_projected (hfinish : finish.kind = .finish)
    (hexpr : ∀ ts, After finish expr ts (Reading 0 · ts ·)) (n : Nat) (ts : List Token) :
    After finish (projected expr n) ts (Reading 11 · ts ·) := by
  unfold projected
  refine after_peek ((after_atom hfinish hexpr n ts).bind fun e mid he => ?_)
  exact after_projections hfinish _ he.loosen n

theorem after_ascribed (hfinish : finish.kind = .finish)
    (hexpr : ∀ ts, After finish expr ts (Reading 0 · ts ·))
    (hty : ∀ ts, After finish ty ts fun t rest => Ty.Reading 0 t ts rest ∧ Ty.Stops rest) (n : Nat)
    (ts : List Token) : After finish (ascribed expr ty n) ts (Reading 10 · ts ·) := by
  unfold ascribed
  refine after_peek ((after_projected hfinish hexpr n ts).bind fun e mid he => ?_)
  refine after_kind_ite hfinish (by decide) ?_ (after_pure he.loosen)
  rintro c us rfl hc
  refine after_next_cons ((hty us).bind fun t rest ht => ?_)
  exact after_pure (he.ascribe hc ht.1 ht.2)

theorem after_arguments (hfinish : finish.kind = .finish)
    (hexpr : ∀ ts, After finish expr ts (Reading 0 · ts ·))
    (hty : ∀ ts, After finish ty ts fun t rest => Ty.Reading 0 t ts rest ∧ Ty.Stops rest)
    (bound line : Nat) {fn : Expr} {ts mid : List Token} (hfn : Reading 9 fn ts mid) (n : Nat) :
    After finish (arguments expr ty bound line fn n) mid (Reading 9 · ts ·) := by
  have hread (ts : List Token) : After finish ty ts (Ty.Reading 0 · ts ·) :=
    (hty ts).imp fun _ _ h => h.1
  induction n generalizing fn mid with
  | zero => exact after_fail _
  | succ n ih =>
    unfold arguments
    cases mid with
    | nil =>
      show After finish (if finish.kind ∈ startKinds then _ else if finish.kind = .atSign then _ else _)
        [] _
      rw [hfinish, if_neg (by decide), if_neg (by decide)]
      exact after_pure hfn
    | cons t us =>
      show After finish (if t.kind ∈ startKinds then _ else if t.kind = .atSign then _ else _)
        (t :: us) _
      split_ifs with ht hat
      · refine (after_ascribed hfinish hexpr hty bound (t :: us)).bind fun arg rest harg => ?_
        exact ih (hfn.app harg)
      · refine after_next_cons ((Ty.after_unapplied hfinish hread bound us).bind fun s rest hs => ?_)
        exact ih (hfn.tapp hat hs)
      · exact after_pure hfn

theorem after_applied (hfinish : finish.kind = .finish)
    (hexpr : ∀ ts, After finish expr ts (Reading 0 · ts ·))
    (hty : ∀ ts, After finish ty ts fun t rest => Ty.Reading 0 t ts rest ∧ Ty.Stops rest) (n : Nat)
    (ts : List Token) : After finish (applied expr ty n) ts (Reading 9 · ts ·) := by
  unfold applied
  refine after_peek ((after_ascribed hfinish hexpr hty n ts).bind fun fn mid hfn => ?_)
  exact after_arguments hfinish hexpr hty n _ hfn.loosen n

theorem after_prefixed (hfinish : finish.kind = .finish) (op : UnOp)
    (hoperand : ∀ ts, After finish operand ts (Reading (op.level + 1) · ts ·)) (n : Nat)
    (ts : List Token) : After finish (prefixed operand op.kind op n) ts (Reading op.level · ts ·) := by
  have hkind : op.kind ≠ .finish := by
    cases op <;> decide
  induction n generalizing ts with
  | zero => exact after_fail _
  | succ n ih =>
    unfold prefixed
    refine after_peek ?_
    split_ifs with ht
    · obtain ⟨t, us, rfl, ht⟩ := exists_cons_of_kind hfinish ht hkind
      refine after_next_cons ((ih us).bind fun e rest he => ?_)
      exact after_pure (Reading.un op ht he)
    · exact (hoperand ts).imp fun _ _ h => h.loosen

/-- The operators of a level are its own. -/
theorem of_lookup_opsAt {k : Nat} {κ : Kind} {op : BinOp} (h : (opsAt k).lookup κ = some op) :
    κ = op.kind ∧ k = op.level := by
  obtain ⟨before, behind, hops, -⟩ := List.lookup_eq_some_iff.mp h
  have hmem : (κ, op) ∈ opsAt k := by
    rw [hops]
    exact List.mem_append_right before List.mem_cons_self
  unfold opsAt at hmem
  split at hmem <;>
    simp only [relOps, addOps, mulOps, List.mem_cons, Prod.mk.injEq, List.not_mem_nil, or_false]
      at hmem
  · obtain ⟨rfl, rfl⟩ := hmem
    exact ⟨rfl, rfl⟩
  · obtain ⟨rfl, rfl⟩ := hmem
    exact ⟨rfl, rfl⟩
  · rcases hmem with ⟨rfl, rfl⟩ | ⟨rfl, rfl⟩ | ⟨rfl, rfl⟩ | ⟨rfl, rfl⟩ | ⟨rfl, rfl⟩ | ⟨rfl, rfl⟩ <;>
      exact ⟨rfl, rfl⟩
  · rcases hmem with ⟨rfl, rfl⟩ | ⟨rfl, rfl⟩ <;> exact ⟨rfl, rfl⟩
  · rcases hmem with ⟨rfl, rfl⟩ | ⟨rfl, rfl⟩ | ⟨rfl, rfl⟩ <;> exact ⟨rfl, rfl⟩

theorem after_operations (hfinish : finish.kind = .finish) {k : Nat}
    (hoperand : ∀ ts, After finish operand ts (Reading (k + 1) · ts ·)) (line : Nat) {left : Expr}
    {ts mid : List Token} (hleft : Reading k left ts mid) (n : Nat) :
    After finish (operations operand (opsAt k) line left n) mid (Reading k · ts ·) := by
  induction n generalizing left mid with
  | zero => exact after_fail _
  | succ n ih =>
    unfold operations
    refine after_kind ?_
    cases mid with
    | nil =>
      have hnone : (opsAt k).lookup finish.kind = none := by
        rw [Option.eq_none_iff_forall_ne_some]
        intro op hop
        obtain ⟨hkind, -⟩ := of_lookup_opsAt hop
        rw [hfinish] at hkind
        cases op <;> cases hkind
      rw [List.headD_nil, hnone]
      exact after_pure hleft
    | cons t us =>
      rw [List.headD_cons]
      cases hop : (opsAt k).lookup t.kind with
      | none => exact after_pure hleft
      | some op =>
        obtain ⟨hkind, rfl⟩ := of_lookup_opsAt hop
        refine after_next_cons ((hoperand us).bind fun right rest hright => ?_)
        exact ih (hleft.bin op hkind hright)

theorem after_operated (hfinish : finish.kind = .finish) {k : Nat}
    (hoperand : ∀ ts, After finish operand ts (Reading (k + 1) · ts ·)) (n : Nat) (ts : List Token) :
    After finish (operated operand (opsAt k) n) ts (Reading k · ts ·) := by
  unfold operated
  refine after_peek ((hoperand ts).bind fun left mid hleft => ?_)
  exact after_operations hfinish hoperand _ hleft.loosen n

/-- The operators, level by level. -/
theorem after_operation (hfinish : finish.kind = .finish)
    (hexpr : ∀ ts, After finish expr ts (Reading 0 · ts ·))
    (hty : ∀ ts, After finish ty ts fun t rest => Ty.Reading 0 t ts rest ∧ Ty.Stops rest) (n : Nat)
    (ts : List Token) : After finish (operation expr ty n) ts (Reading 2 · ts ·) := by
  have happlied := after_applied hfinish hexpr hty n
  have hnegation := after_prefixed hfinish .neg happlied n
  have hproduct := after_operated hfinish (k := 7) hnegation n
  have hsum := after_operated hfinish (k := 6) hproduct n
  have hrelation := after_operated hfinish (k := 5) hsum n
  have hcomplement := after_prefixed hfinish .not hrelation n
  have hconjunction := after_operated hfinish (k := 3) hcomplement n
  exact after_operated hfinish (k := 2) hconjunction n ts

theorem after_step (hfinish : finish.kind = .finish)
    (hexpr : ∀ ts, After finish expr ts (Reading 0 · ts ·))
    (hty : ∀ ts, After finish ty ts fun t rest => Ty.Reading 0 t ts rest ∧ Ty.Stops rest) (n : Nat)
    (ts : List Token) : After finish (step expr ty n) ts (Reading 0 · ts ·) := by
  unfold step
  refine after_peek ?_
  show After finish (if _ then _ else _) ts _
  split_ifs with hlam htlam hcond
  · obtain ⟨t, us, rfl, ht⟩ := exists_cons_of_kind hfinish hlam.1 (by decide)
    refine after_next_cons (after_ident hfinish ?_)
    rintro x vs rfl hx
    refine after_expect hfinish (by decide) ?_
    rintro c ws rfl hc
    refine (hty ws).bind fun s mid hs => ?_
    refine after_expect hfinish (by decide) ?_
    rintro d body rfl hd
    refine (hexpr body).bind fun e rest he => ?_
    exact after_pure (Reading.lam ht hx hc hs.1 hd he)
  · obtain ⟨t, us, rfl, ht⟩ := exists_cons_of_kind hfinish htlam.1 (by decide)
    refine after_next_cons (after_ident hfinish ?_)
    rintro x vs rfl hx
    refine (after_bounds hfinish n vs).bind fun bs mid hbs => ?_
    refine (hexpr mid).bind fun e rest he => ?_
    exact after_pure (Reading.tlam ht hx hbs he)
  · obtain ⟨t, us, rfl, ht⟩ := exists_cons_of_kind hfinish hcond (by decide)
    refine after_next_cons ((hexpr us).bind fun c mid hc => ?_)
    refine after_expect hfinish (by decide) ?_
    rintro u vs rfl hu
    refine (hexpr vs).bind fun y mid hy => ?_
    refine after_expect hfinish (by decide) ?_
    rintro v ws rfl hv
    refine (hexpr ws).bind fun z rest hz => ?_
    exact after_pure (Reading.cond ht hc hu hy hv hz)
  · exact (after_operation hfinish hexpr hty n ts).imp fun _ _ h => h.loosen.loosen

/-- What the parser returns is read from the tokens it takes. -/
theorem parser_after (hfinish : finish.kind = .finish) (n : Nat) (ts : List Token) :
    After finish (parser n) ts (Reading 0 · ts ·) := by
  induction n generalizing ts with
  | zero => exact after_fail _
  | succ n ih => exact after_step hfinish ih (Ty.parser_after hfinish n) n ts

theorem reading_of_parse {ts rest : List Token} {e : Expr} (h : parse ts = .ok (e, rest)) :
    Reading 0 e ts rest :=
  parser_after (Token.kind_finishOf ts) _ ts e rest h

end Expr

end TraitCalculus
