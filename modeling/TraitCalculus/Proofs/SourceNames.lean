import Mathlib
import TraitCalculus.Proofs.AlphaEquivalence
import TraitCalculus.Proofs.Scanning
import TraitCalculus.Stage

/-! Names of a program that was read. Identifiers are made of letters, digits and underscores, and
so are the names that desugaring makes up: no name of a program is a fresh one before the first
draw. -/
namespace TraitCalculus

def Param.typeNames : Param → List String
  | typed t => t.names
  | _ => []

namespace Expr

mutual

/-- The names of all types that are written in an expression, and of its type lambdas. -/
def typeNames : Expr → List String
  | lam _ _ p body => p.typeNames ++ body.typeNames
  | tlam _ x _ body => x :: body.typeNames
  | cond _ c y z => c.typeNames ++ (y.typeNames ++ z.typeNames)
  | bin _ _ l r => l.typeNames ++ r.typeNames
  | un _ _ e => e.typeNames
  | app _ f a => f.typeNames ++ a.typeNames
  | tapp _ f t => f.typeNames ++ t.names
  | ascribe _ e t => e.typeNames ++ t.names
  | proj _ e _ => e.typeNames
  | var .. => []
  | val .. => []
  | list _ es => typeNamesItems es
  | record _ fs => typeNamesFields fs

def typeNamesItems : List Expr → List String
  | [] => []
  | e :: es => e.typeNames ++ typeNamesItems es

def typeNamesFields : List (String × Expr) → List String
  | [] => []
  | (_, e) :: fs => e.typeNames ++ typeNamesFields fs

end

mutual

/-- The names of all variables in an expression, and of its lambdas. -/
def termNames : Expr → List String
  | lam _ x _ body => x :: body.termNames
  | tlam _ _ _ body => body.termNames
  | cond _ c y z => c.termNames ++ (y.termNames ++ z.termNames)
  | bin _ _ l r => l.termNames ++ r.termNames
  | un _ _ e => e.termNames
  | app _ f a => f.termNames ++ a.termNames
  | tapp _ f _ => f.termNames
  | ascribe _ e _ => e.termNames
  | proj _ e _ => e.termNames
  | var _ x => [x]
  | val .. => []
  | list _ es => termNamesItems es
  | record _ fs => termNamesFields fs

def termNamesItems : List Expr → List String
  | [] => []
  | e :: es => e.termNames ++ termNamesItems es

def termNamesFields : List (String × Expr) → List String
  | [] => []
  | (_, e) :: fs => e.termNames ++ termNamesFields fs

end

mutual

/-- The names of an expression's lambdas. -/
def lamNames : Expr → List String
  | lam _ x _ body => x :: body.lamNames
  | tlam _ _ _ body => body.lamNames
  | cond _ c y z => c.lamNames ++ (y.lamNames ++ z.lamNames)
  | bin _ _ l r => l.lamNames ++ r.lamNames
  | un _ _ e => e.lamNames
  | app _ f a => f.lamNames ++ a.lamNames
  | tapp _ f _ => f.lamNames
  | ascribe _ e _ => e.lamNames
  | proj _ e _ => e.lamNames
  | var .. => []
  | val .. => []
  | list _ es => lamNamesItems es
  | record _ fs => lamNamesFields fs

def lamNamesItems : List Expr → List String
  | [] => []
  | e :: es => e.lamNames ++ lamNamesItems es

def lamNamesFields : List (String × Expr) → List String
  | [] => []
  | (_, e) :: fs => e.lamNames ++ lamNamesFields fs

end

theorem mem_typeNamesItems {x : String} {es : List Expr} :
    x ∈ typeNamesItems es ↔ ∃ e ∈ es, x ∈ e.typeNames :=
  mem_walk rfl (fun _ _ => rfl) es

theorem mem_typeNamesFields {x : String} {fs : List (String × Expr)} :
    x ∈ typeNamesFields fs ↔ ∃ f ∈ fs, x ∈ f.2.typeNames :=
  mem_walk rfl (fun _ _ => rfl) fs

theorem mem_termNamesItems {x : String} {es : List Expr} :
    x ∈ termNamesItems es ↔ ∃ e ∈ es, x ∈ e.termNames :=
  mem_walk rfl (fun _ _ => rfl) es

theorem mem_termNamesFields {x : String} {fs : List (String × Expr)} :
    x ∈ termNamesFields fs ↔ ∃ f ∈ fs, x ∈ f.2.termNames :=
  mem_walk rfl (fun _ _ => rfl) fs

theorem mem_lamNamesItems {x : String} {es : List Expr} :
    x ∈ lamNamesItems es ↔ ∃ e ∈ es, x ∈ e.lamNames :=
  mem_walk rfl (fun _ _ => rfl) es

theorem mem_lamNamesFields {x : String} {fs : List (String × Expr)} :
    x ∈ lamNamesFields fs ↔ ∃ f ∈ fs, x ∈ f.2.lamNames :=
  mem_walk rfl (fun _ _ => rfl) fs

theorem lamNames_sublist_termNames (e : Expr) : e.lamNames.Sublist e.termNames := by
  induction e using Expr.induction with
  | lam n x p body ih => exact ih.cons_cons x
  | tlam n x bounds body ih | un n op e ih | tapp n f t ih | ascribe n e t ih | proj n e label ih =>
    exact ih
  | cond n c y z ihc ihy ihz => exact ihc.append (ihy.append ihz)
  | bin n op l r ihl ihr => exact ihl.append ihr
  | app n f a ihf iha => exact ihf.append iha
  | var n x => exact List.nil_sublist _
  | val n v => exact List.nil_sublist _
  | list n es ih =>
    show (lamNamesItems es).Sublist (termNamesItems es)
    induction es with
    | nil => exact List.nil_sublist _
    | cons e es ihes =>
      obtain ⟨he, hes⟩ := List.forall_mem_cons.mp ih
      exact he.append (ihes hes)
  | record n fs ih =>
    show (lamNamesFields fs).Sublist (termNamesFields fs)
    induction fs with
    | nil => exact List.nil_sublist _
    | cons f fs ihfs =>
      obtain ⟨hf, hfs⟩ := List.forall_mem_cons.mp ih
      exact hf.append (ihfs hfs)

end Expr

/-- A type all of whose names can stand in a program text. -/
def Ty.Source (t : Ty) : Prop := ∀ w ∈ t.names, SourceName w

/-- An expression all of whose names can stand in a program text. -/
structure Expr.Source (e : Expr) : Prop where
  types : ∀ w ∈ e.typeNames, SourceName w
  terms : ∀ w ∈ e.termNames, SourceName w

namespace Lexeme

theorem sourceName_of_word {cs : List Char} (h : ∀ c ∈ cs, isWordChar c = true) :
    SourceName (String.ofList cs) := by
  intro hm
  rw [String.toList_ofList] at hm
  have hd := h '$' hm
  revert hd
  decide

/-- The kinds of lexemes that no operator, punctuation or quote starts. -/
def plainKinds : List Kind := [.ident, .number]

variable {k : Kind}

theorem pairKind?_ne (hk : k ∈ plainKinds) (c d : Char) : pairKind? c d ≠ some k := by
  have hpairs : ∀ k ∈ [Kind.arrow, .eq, .neq, .leq, .geq, .and, .or], k ∉ plainKinds := by decide
  unfold pairKind?
  split_ifs <;> rintro ⟨⟩ <;> exact hpairs _ (by decide) hk

theorem markKind?_ne (hk : k ∈ plainKinds) (c : Char) : markKind? c ≠ some k := by
  intro h
  obtain ⟨l₁, l₂, hm, -⟩ := List.lookup_eq_some_iff.mp h
  have hmem : (c, k) ∈ marks := by simp [hm]
  have hall : ∀ p ∈ marks, p.2 ∉ plainKinds := by decide
  exact hall _ hmem hk

theorem symbol_kind_ne (hk : k ∈ plainKinds) (c : Char) (cs : List Char) : (symbol c cs).kind ≠ k := by
  have hmark : (markKind? c).getD .mismatch ≠ k := by
    cases h : markKind? c with
    | none =>
      rintro rfl
      revert hk
      decide
    | some k' => exact fun he => markKind?_ne hk c (h.trans (congrArg some he))
  unfold symbol
  cases cs with
  | nil => exact hmark
  | cons d cs =>
    cases h : pairKind? c d with
    | none => simpa [h] using hmark
    | some k' =>
      have hk' : k' ≠ k := fun he => pairKind?_ne hk c d (h.trans (congrArg some he))
      simpa [h] using hk'

theorem quoted_kind_ne (hk : k ∈ plainKinds) (q : Char) (cs : List Char) : (quoted q cs).kind ≠ k := by
  have hkinds : Kind.string ∉ plainKinds ∧ Kind.mismatch ∉ plainKinds := by decide
  unfold quoted
  dsimp only
  split_ifs <;> rintro rfl
  · exact hkinds.1 hk
  · exact hkinds.2 hk

/-- An identifier is cut from a letter or underscore and the letters, digits and underscores behind
it. -/
theorem first_ident {c : Char} {cs : List Char} (h : (first c cs).kind = .ident) :
    isWordStart c ∧ (first c cs).text = c :: cs.takeWhile isWordChar := by
  unfold first at h ⊢
  split_ifs at h ⊢ with h₁ h₂ h₃ h₄ h₅
  · simp [number] at h
  · exact absurd h (quoted_kind_ne (by decide) c cs)
  · exact ⟨h₄, rfl⟩
  · exact absurd h (symbol_kind_ne (by decide) c cs)

theorem isWordChar_of_first_ident {c : Char} {cs : List Char} (h : (first c cs).kind = .ident) :
    ∀ d ∈ (first c cs).text, isWordChar d = true := by
  obtain ⟨hc, htext⟩ := first_ident h
  rw [htext, List.forall_mem_cons]
  exact ⟨by simp [isWordChar, hc], fun d => List.mem_takeWhile_imp⟩

/-- Every lexeme stands at the front of some text. -/
theorem forall_mem_cut {P : Lexeme → Prop} (hfirst : ∀ c cs, P (first c cs)) (done : List Lexeme)
    (hd : ∀ x ∈ done, P x) (skip : Nat) (cs : List Char) : ∀ x ∈ cut done skip cs, P x := by
  induction cs generalizing done skip with
  | nil =>
    cases skip <;> simpa [cut] using hd
  | cons c cs ih =>
    cases skip with
    | zero => exact ih _ (List.forall_mem_cons.mpr ⟨hfirst c cs, hd⟩) _
    | succ skip => exact ih done hd skip

end Lexeme

/-- A token whose text, if it is an identifier, can stand in a program text. -/
def Token.Source (t : Token) : Prop := t.kind = .ident → SourceName t.text

namespace Token

theorem forall_mem_place {P : Token → Prop} (done : List Token) (hd : ∀ t ∈ done, P t) (p : Position)
    (xs : List Lexeme) (hx : ∀ x ∈ xs, ∀ line column, P ⟨x.kind, x.value, line, column⟩)
    {tokens : List Token} (h : place done p xs = .ok tokens) : ∀ t ∈ tokens, P t := by
  induction xs generalizing done p with
  | nil =>
    have : done.reverse = tokens := by simpa [place] using h
    simpa [← this] using hd
  | cons x xs ih =>
    obtain ⟨hx, hxs⟩ := List.forall_mem_cons.mp hx
    unfold place at h
    split at h
    · exact ih done hd _ hxs h
    · exact ih done hd _ hxs h
    · cases h
    · exact ih _ (List.forall_mem_cons.mpr ⟨hx _ _, hd⟩) _ hxs h

/-- Every token of a text comes from a lexeme. -/
theorem forall_mem_ofText {P : Token → Prop}
    (hfirst : ∀ c cs line column,
      P ⟨(Lexeme.first c cs).kind, (Lexeme.first c cs).value, line, column⟩)
    {code : String} {tokens : List Token} (h : ofText code = .ok tokens) : ∀ t ∈ tokens, P t :=
  forall_mem_place [] (by simp) _ _ (Lexeme.forall_mem_cut hfirst [] (by simp) 0 _) h

theorem source_ofText {code : String} {tokens : List Token} (h : ofText code = .ok tokens) :
    ∀ t ∈ tokens, t.Source := by
  refine forall_mem_ofText (fun c cs line column hk => ?_) h
  have hkind : (Lexeme.first c cs).kind = .ident := hk
  have hvalue : (Lexeme.first c cs).value = String.ofList (Lexeme.first c cs).text := by
    simp [Lexeme.value, hkind]
  rw [hvalue]
  exact Lexeme.sourceName_of_word (Lexeme.isWordChar_of_first_ident hkind)

theorem source_finishOf (tokens : List Token) : (finishOf tokens).Source := by
  unfold finishOf
  intro h
  split at h <;> simp at h

end Token

namespace Parser

variable {α β : Type}

/-- On tokens whose identifiers are names, the parser's result has the property `P`, and it
leaves such tokens. -/
def Reads (p : Parser α) (P : α → Prop) : Prop :=
  ∀ finish ts a rest, finish.Source → (∀ t ∈ ts, Token.Source t) →
    p finish ts = .ok (a, rest) → P a ∧ ∀ t ∈ rest, Token.Source t

theorem reads_pure {P : α → Prop} {a : α} (ha : P a) : Reads (Pure.pure a) P := by
  intro finish ts b rest _ hts hp
  obtain ⟨rfl, rfl⟩ : a = b ∧ ts = rest := by simpa [Pure.pure, Parser.pure] using hp
  exact ⟨ha, hts⟩

theorem Reads.bind {p : Parser α} {P : α → Prop} {f : α → Parser β} {Q : β → Prop}
    (hp : Reads p P) (hf : ∀ a, P a → Reads (f a) Q) : Reads (p >>= f) Q := by
  intro finish ts b rest hfin hts hb
  simp only [Bind.bind, Parser.bind] at hb
  split at hb
  · cases hb
  · rename_i a mid hpa
    obtain ⟨ha, hmid⟩ := hp finish ts a mid hfin hts hpa
    exact hf a ha finish mid b rest hfin hmid hb

theorem reads_fail {P : α → Prop} (e : ParseError) : Reads (fail e) P :=
  fun _ _ _ _ _ _ h => nomatch h

theorem reads_refuse {P : α → Prop} (kinds : List Kind) : Reads (refuse kinds) P :=
  fun _ _ _ _ _ _ h => nomatch h

theorem reads_ite_of {p q : Parser α} {P : α → Prop} {c : Prop} [Decidable c]
    (hp : c → Reads p P) (hq : ¬c → Reads q P) : Reads (if c then p else q) P := by
  split_ifs with hc
  · exact hp hc
  · exact hq hc

theorem reads_ite {p q : Parser α} {P : α → Prop} {c : Prop} [Decidable c]
    (hp : Reads p P) (hq : Reads q P) : Reads (if c then p else q) P :=
  reads_ite_of (fun _ => hp) fun _ => hq

theorem source_headD {finish : Token} {ts : List Token} (hf : finish.Source)
    (hts : ∀ t ∈ ts, Token.Source t) : (ts.headD finish).Source := by
  cases ts with
  | nil => exact hf
  | cons t ts => exact hts t List.mem_cons_self

theorem source_drop {ts : List Token} (hts : ∀ t ∈ ts, Token.Source t) (n : Nat) :
    ∀ t ∈ ts.drop n, Token.Source t :=
  fun t ht => hts t (List.mem_of_mem_drop ht)

theorem reads_peek : Reads peek Token.Source := by
  intro finish ts t rest hf hts hp
  obtain ⟨rfl, rfl⟩ : ts.headD finish = t ∧ ts = rest := by simpa [peek] using hp
  exact ⟨source_headD hf hts, hts⟩

theorem reads_kindAhead (n : Nat) : Reads (kindAhead n) fun _ => True := by
  intro finish ts k rest _ hts hp
  obtain ⟨-, rfl⟩ : (ts.getD n finish).kind = k ∧ ts = rest := by simpa [kindAhead] using hp
  exact ⟨trivial, hts⟩

theorem reads_next : Reads next Token.Source := by
  intro finish ts t rest hf hts hp
  obtain ⟨rfl, rfl⟩ : ts.headD finish = t ∧ ts.drop 1 = rest := by simpa [next] using hp
  exact ⟨source_headD hf hts, source_drop hts 1⟩

theorem reads_expect (kinds : List Kind) :
    Reads (expect kinds) fun t => t.Source ∧ t.kind ∈ kinds := by
  intro finish ts t rest hf hts hp
  unfold expect Token.check at hp
  split_ifs at hp with hk
  obtain ⟨rfl, rfl⟩ : ts.headD finish = t ∧ ts.drop 1 = rest := by simpa using hp
  exact ⟨⟨source_headD hf hts, hk⟩, source_drop hts 1⟩

theorem reads_skipIf (k : Kind) : Reads (skipIf k) fun _ => True := by
  intro finish ts u rest _ hts hp
  have hr : (if (ts.headD finish).kind = k then ts.drop 1 else ts) = rest := by
    simpa [skipIf] using hp
  refine ⟨trivial, ?_⟩
  rw [← hr]
  split_ifs
  · exact source_drop hts 1
  · exact hts

theorem reads_ident : Reads ident SourceName :=
  (reads_expect [.ident]).bind fun _ ht => reads_pure (ht.1 (List.mem_singleton.mp ht.2))

theorem reads_boundList (done : List String) (n : Nat) :
    Reads (boundList done n) fun _ => True := by
  induction n generalizing done with
  | zero => exact reads_fail _
  | succ n ih =>
    unfold boundList
    refine (reads_kindAhead 0).bind fun _ _ => reads_ite (reads_pure trivial) ?_
    exact reads_ident.bind fun x _ => (reads_skipIf .add).bind fun _ _ => ih (x :: done)

theorem reads_bounds (n : Nat) : Reads (bounds n) fun _ => True := by
  unfold bounds
  refine (reads_kindAhead 0).bind fun _ _ => reads_ite ?_ ?_
  · exact reads_next.bind fun _ _ => (reads_boundList [] n).bind fun _ _ =>
      (reads_expect _).bind fun _ _ => reads_pure trivial
  · exact (reads_expect _).bind fun _ _ => reads_pure trivial

theorem reads_labelled {P : α → Prop} {value : Parser α} (sign : Kind) (hvalue : Reads value P)
    (done : List (String × α)) (hd : ∀ f ∈ done, P f.2) (n : Nat) :
    Reads (labelled sign value done n) fun fs => ∀ f ∈ fs, P f.2 := by
  induction n generalizing done with
  | zero => exact reads_fail _
  | succ n ih =>
    unfold labelled
    refine (reads_kindAhead 0).bind fun _ _ => reads_ite ?_ ?_
    · exact reads_next.bind fun _ _ => reads_pure (by simpa using hd)
    · refine (reads_expect _).bind fun label _ => reads_ite (reads_fail _) ?_
      refine (reads_expect _).bind fun _ _ => hvalue.bind fun a ha => ?_
      exact (reads_skipIf _).bind fun _ _ =>
        ih ((label.text, a) :: done) (List.forall_mem_cons.mpr ⟨ha, hd⟩)

end Parser

namespace Ty

open TraitCalculus.Parser

variable {ty : Parser Ty}

theorem source_record {fields : List (String × Ty)} (line : Option Nat)
    (h : ∀ f ∈ fields, f.2.Source) : (record line fields).Source := by
  intro w hw
  obtain ⟨f, hf, hwf⟩ := mem_namesFields.mp hw
  exact h f hf w hwf

theorem reads_unapplied (hty : Reads ty Source) (n : Nat) : Reads (unapplied ty n) Source := by
  unfold unapplied
  refine reads_peek.bind fun t ht => ?_
  split
  · rename_i hk
    refine reads_next.bind fun _ _ => reads_pure ?_
    intro w hw
    have hwt : w = t.text := by simpa [names] using hw
    exact hwt ▸ ht hk
  · exact reads_next.bind fun _ _ => hty.bind fun u hu =>
      (reads_expect _).bind fun _ _ => reads_pure hu
  · exact reads_next.bind fun _ _ => hty.bind fun u hu =>
      (reads_expect _).bind fun _ _ => reads_pure hu
  · rw [fieldList_eq]
    exact reads_next.bind fun _ _ => (reads_labelled _ hty [] (by simp) n).bind fun fs hfs =>
      reads_pure (source_record _ hfs)
  · exact reads_refuse _

theorem reads_arguments (hty : Reads ty Source) (bound line : Nat) (fn : Ty) (hfn : fn.Source)
    (n : Nat) : Reads (arguments ty bound line fn n) Source := by
  induction n generalizing fn with
  | zero => exact reads_fail _
  | succ n ih =>
    unfold arguments
    refine (reads_kindAhead 0).bind fun _ _ => reads_ite ?_ (reads_pure hfn)
    refine (reads_unapplied hty bound).bind fun arg harg => ih _ ?_
    exact List.forall_mem_append.mpr ⟨hfn, harg⟩

theorem reads_applied (hty : Reads ty Source) (n : Nat) : Reads (applied ty n) Source :=
  reads_peek.bind fun t _ => (reads_unapplied hty n).bind fun fn hfn =>
    reads_arguments hty n t.line fn hfn n

theorem reads_function (hty : Reads ty Source) (bound n : Nat) :
    Reads (function ty bound n) Source := by
  induction n with
  | zero => exact reads_fail _
  | succ n ih =>
    unfold function
    refine reads_peek.bind fun t _ => (reads_applied hty bound).bind fun dom hdom => ?_
    refine (reads_kindAhead 0).bind fun _ _ => reads_ite ?_ (reads_pure hdom)
    exact reads_next.bind fun _ _ => ih.bind fun cod hcod =>
      reads_pure (List.forall_mem_append.mpr ⟨hdom, hcod⟩)

theorem reads_step (hty : Reads ty Source) (n : Nat) : Reads (step ty n) Source := by
  unfold step
  refine reads_peek.bind fun t _ => reads_ite ?_ (reads_function hty n n)
  refine reads_next.bind fun _ _ => reads_ident.bind fun x hx => ?_
  exact (reads_bounds n).bind fun bs _ => hty.bind fun body hbody =>
    reads_pure (List.forall_mem_cons.mpr ⟨hx, hbody⟩)

theorem parser_reads (n : Nat) : Reads (parser n) Source := by
  induction n with
  | zero => exact reads_fail _
  | succ n ih => exact reads_step ih n

end Ty

namespace Expr

open TraitCalculus.Parser

theorem source_join {a b c : Expr} (ht : c.typeNames = a.typeNames ++ b.typeNames)
    (hn : c.termNames = a.termNames ++ b.termNames) (ha : a.Source) (hb : b.Source) : c.Source :=
  ⟨ht ▸ List.forall_mem_append.mpr ⟨ha.types, hb.types⟩,
    hn ▸ List.forall_mem_append.mpr ⟨ha.terms, hb.terms⟩⟩

theorem source_typed {a c : Expr} {t : Ty} (ht : c.typeNames = a.typeNames ++ t.names)
    (hn : c.termNames = a.termNames) (ha : a.Source) (hty : t.Source) : c.Source :=
  ⟨ht ▸ List.forall_mem_append.mpr ⟨ha.types, hty⟩, hn ▸ ha.terms⟩

theorem source_var {x : String} (n : Note) (h : SourceName x) : (var n x).Source :=
  ⟨by simp [typeNames], by simpa [termNames] using h⟩

theorem source_val (n : Note) (v : Value) : (val n v).Source :=
  ⟨by simp [typeNames], by simp [termNames]⟩

theorem source_list {es : List Expr} (n : Note) (h : ∀ e ∈ es, e.Source) : (list n es).Source := by
  constructor
  · intro w hw
    obtain ⟨e, he, hwe⟩ := mem_typeNamesItems.mp hw
    exact (h e he).types w hwe
  · intro w hw
    obtain ⟨e, he, hwe⟩ := mem_termNamesItems.mp hw
    exact (h e he).terms w hwe

theorem source_record {fs : List (String × Expr)} (n : Note) (h : ∀ f ∈ fs, f.2.Source) :
    (record n fs).Source := by
  constructor
  · intro w hw
    obtain ⟨f, hf, hwf⟩ := mem_typeNamesFields.mp hw
    exact (h f hf).types w hwf
  · intro w hw
    obtain ⟨f, hf, hwf⟩ := mem_termNamesFields.mp hw
    exact (h f hf).terms w hwf

theorem source_lam {x : String} {t : Ty} {body : Expr} (n : Note) (hx : SourceName x)
    (ht : t.Source) (hb : body.Source) : (lam n x (.typed t) body).Source :=
  ⟨List.forall_mem_append.mpr ⟨ht, hb.types⟩, List.forall_mem_cons.mpr ⟨hx, hb.terms⟩⟩

variable {expr : Parser Expr} {ty : Parser Ty}

theorem reads_elementList (he : Reads expr Source) (done : List Expr)
    (hd : ∀ e ∈ done, e.Source) (n : Nat) :
    Reads (elementList expr done n) fun es => ∀ e ∈ es, e.Source := by
  induction n generalizing done with
  | zero => exact reads_fail _
  | succ n ih =>
    unfold elementList
    refine (reads_kindAhead 0).bind fun _ _ => reads_ite ?_ ?_
    · exact reads_next.bind fun _ _ => reads_pure (by simpa using hd)
    · exact he.bind fun e hs => (reads_skipIf _).bind fun _ _ =>
        ih (e :: done) (List.forall_mem_cons.mpr ⟨hs, hd⟩)

theorem reads_atom (he : Reads expr Source) (n : Nat) : Reads (atom expr n) Source := by
  unfold atom
  refine reads_peek.bind fun t ht => ?_
  split
  · rename_i hk
    exact reads_next.bind fun _ _ => reads_pure (source_var _ (ht hk))
  · refine reads_next.bind fun _ _ => ?_
    split
    · exact reads_fail _
    · exact reads_pure (source_val _ _)
  · exact reads_next.bind fun _ _ => reads_pure (source_val _ _)
  · exact reads_next.bind fun _ _ => reads_pure (source_val _ _)
  · exact reads_next.bind fun _ _ => reads_pure (source_val _ _)
  · exact reads_next.bind fun _ _ => he.bind fun e hs =>
      (reads_expect _).bind fun _ _ => reads_pure hs
  · exact reads_next.bind fun _ _ => (reads_elementList he [] (by simp) n).bind fun es hes =>
      reads_pure (source_list _ hes)
  · rw [fieldList_eq]
    exact reads_next.bind fun _ _ => (reads_labelled _ he [] (by simp) n).bind fun fs hfs =>
      reads_pure (source_record _ hfs)
  · exact reads_refuse _

theorem reads_projections (line : Nat) (e : Expr) (hs : e.Source) (n : Nat) :
    Reads (projections line e n) Source := by
  induction n generalizing e with
  | zero => exact reads_fail _
  | succ n ih =>
    unfold projections
    refine (reads_kindAhead 0).bind fun _ _ => reads_ite ?_ (reads_pure hs)
    exact reads_next.bind fun _ _ => reads_ident.bind fun label _ => ih _ ⟨hs.types, hs.terms⟩

theorem reads_projected (he : Reads expr Source) (n : Nat) : Reads (projected expr n) Source :=
  reads_peek.bind fun t _ => (reads_atom he n).bind fun e hs => reads_projections t.line e hs n

theorem reads_ascribed (he : Reads expr Source) (hty : Reads ty Ty.Source) (n : Nat) :
    Reads (ascribed expr ty n) Source := by
  unfold ascribed
  refine reads_peek.bind fun t _ => (reads_projected he n).bind fun e hs => ?_
  refine (reads_kindAhead 0).bind fun _ _ => reads_ite ?_ (reads_pure hs)
  exact reads_next.bind fun _ _ => hty.bind fun s hty => reads_pure (source_typed rfl rfl hs hty)

theorem reads_arguments (he : Reads expr Source) (hty : Reads ty Ty.Source) (bound line : Nat)
    (fn : Expr) (hfn : fn.Source) (n : Nat) :
    Reads (arguments expr ty bound line fn n) Source := by
  induction n generalizing fn with
  | zero => exact reads_fail _
  | succ n ih =>
    unfold arguments
    refine (reads_kindAhead 0).bind fun _ _ => reads_ite ?_ (reads_ite ?_ (reads_pure hfn))
    · exact (reads_ascribed he hty bound).bind fun arg harg => ih _ (source_join rfl rfl hfn harg)
    · exact reads_next.bind fun _ _ => (Ty.reads_unapplied hty bound).bind fun s hs =>
        ih _ (source_typed rfl rfl hfn hs)

theorem reads_applied (he : Reads expr Source) (hty : Reads ty Ty.Source) (n : Nat) :
    Reads (applied expr ty n) Source :=
  reads_peek.bind fun t _ => (reads_ascribed he hty n).bind fun fn hfn =>
    reads_arguments he hty n t.line fn hfn n

theorem reads_prefixed {operand : Parser Expr} (ho : Reads operand Source) (k : Kind) (op : UnOp)
    (n : Nat) : Reads (prefixed operand k op n) Source := by
  induction n with
  | zero => exact reads_fail _
  | succ n ih =>
    unfold prefixed
    refine reads_peek.bind fun t _ => reads_ite ?_ ho
    exact reads_next.bind fun _ _ => ih.bind fun e hs => reads_pure ⟨hs.types, hs.terms⟩

theorem reads_operations {operand : Parser Expr} (ho : Reads operand Source)
    (ops : List (Kind × BinOp)) (line : Nat) (left : Expr) (hl : left.Source) (n : Nat) :
    Reads (operations operand ops line left n) Source := by
  induction n generalizing left with
  | zero => exact reads_fail _
  | succ n ih =>
    unfold operations
    refine (reads_kindAhead 0).bind fun _ _ => ?_
    split
    · exact reads_pure hl
    · exact reads_next.bind fun _ _ => ho.bind fun right hr => ih _ (source_join rfl rfl hl hr)

theorem reads_operated {operand : Parser Expr} (ho : Reads operand Source)
    (ops : List (Kind × BinOp)) (n : Nat) : Reads (operated operand ops n) Source :=
  reads_peek.bind fun t _ => ho.bind fun left hl => reads_operations ho ops t.line left hl n

theorem reads_operation (he : Reads expr Source) (hty : Reads ty Ty.Source) (n : Nat) :
    Reads (operation expr ty n) Source := by
  have negation := reads_prefixed (reads_applied he hty n) .sub .neg n
  have product := reads_operated negation mulOps n
  have sum := reads_operated product addOps n
  have relation := reads_operated sum relOps n
  have complement := reads_prefixed relation .not .not n
  have conjunction := reads_operated complement [(.and, .and)] n
  exact reads_operated conjunction [(.or, .or)] n

theorem reads_step (he : Reads expr Source) (hty : Reads ty Ty.Source) (n : Nat) :
    Reads (step expr ty n) Source := by
  unfold step
  refine reads_peek.bind fun t _ => (reads_kindAhead 2).bind fun k _ => ?_
  refine reads_ite ?_ (reads_ite ?_ (reads_ite ?_ (reads_operation he hty n)))
  · refine reads_next.bind fun _ _ => reads_ident.bind fun x hx => ?_
    refine (reads_expect _).bind fun _ _ => hty.bind fun s hs => ?_
    exact (reads_expect _).bind fun _ _ => he.bind fun body hb =>
      reads_pure (source_lam _ hx hs hb)
  · refine reads_next.bind fun _ _ => reads_ident.bind fun x hx => ?_
    exact (reads_bounds n).bind fun bs _ => he.bind fun body hb =>
      reads_pure ⟨List.forall_mem_cons.mpr ⟨hx, hb.types⟩, hb.terms⟩
  · refine reads_next.bind fun _ _ => he.bind fun c hc => ?_
    refine (reads_expect _).bind fun _ _ => he.bind fun y hy => ?_
    refine (reads_expect _).bind fun _ _ => he.bind fun z hz => reads_pure ?_
    exact source_join (b := app .blank y z) rfl rfl hc (source_join rfl rfl hy hz)

theorem parser_reads (n : Nat) : Reads (parser n) Source := by
  induction n with
  | zero => exact reads_fail _
  | succ n ih => exact reads_step ih (Ty.parser_reads n) n

end Expr

/-- The names of a block's member and of its content can stand in a program text. -/
def Member.Source {α : Type} (P : α → Prop) (m : Member α) : Prop := SourceName m.name ∧ P m.item

def Item.Source : Item → Prop
  | assign _ x e => SourceName x ∧ e.Source
  | typedef _ _ t => t.Source
  | eval _ e => e.Source
  | trait _ name params ms =>
    SourceName name ∧ (∀ a ∈ params, SourceName a) ∧ ∀ m ∈ ms, m.Source Ty.Source
  | struct _ name ms => SourceName name ∧ ∀ m ∈ ms, m.Source Ty.Source
  | impl _ name type ms => SourceName name ∧ type.Source ∧ ∀ m ∈ ms, m.Source Expr.Source

def Stmt.Source : Stmt → Prop
  | assign _ x e => SourceName x ∧ e.Source
  | eval _ e => e.Source
  | inst _ _ type dict => type.Source ∧ dict.Source
  | field _ x _ type => SourceName x ∧ type.Source

def Decl.Source : Decl → Prop
  | typedef _ _ t => t.Source
  | stmt s => s.Source

namespace Item

open TraitCalculus.Parser

theorem reads_memberList {α : Type} {P : α → Prop} (separator : Kind) {item : Parser α}
    (hi : Reads item P) (done : List (Member α)) (hd : ∀ m ∈ done, m.Source P) (n : Nat) :
    Reads (memberList separator item done n) fun ms => ∀ m ∈ ms, m.Source P := by
  induction n generalizing done with
  | zero => exact reads_fail _
  | succ n ih =>
    unfold memberList
    refine (reads_kindAhead 0).bind fun _ _ => reads_ite ?_ ?_
    · exact reads_next.bind fun _ _ => reads_pure (by simpa using hd)
    · refine (reads_expect _).bind fun label hl => (reads_expect _).bind fun _ _ => ?_
      refine hi.bind fun a ha => (reads_expect _).bind fun _ _ => ih _ ?_
      exact List.forall_mem_cons.mpr ⟨⟨hl.1 (List.mem_singleton.mp hl.2), ha⟩, hd⟩

theorem reads_nameList (done : List String) (hd : ∀ x ∈ done, SourceName x) (n : Nat) :
    Reads (nameList done n) fun xs => ∀ x ∈ xs, SourceName x := by
  induction n generalizing done with
  | zero => exact reads_fail _
  | succ n ih =>
    unfold nameList
    refine (reads_kindAhead 0).bind fun _ _ => reads_ite ?_ (reads_pure (by simpa using hd))
    exact reads_ident.bind fun x hx => ih _ (List.forall_mem_cons.mpr ⟨hx, hd⟩)

theorem parser_reads (n : Nat) : Reads (parser n) Source := by
  unfold parser
  refine reads_peek.bind fun t ht => (reads_kindAhead 1).bind fun after _ => ?_
  have hms := reads_memberList .colon (Ty.parser_reads n) [] (by simp) n
  split
  · refine reads_next.bind fun _ _ => reads_ident.bind fun name hname => ?_
    refine (reads_nameList [] (by simp) n).bind fun params hp => ?_
    exact (reads_expect _).bind fun _ _ => hms.bind fun ms hms => reads_pure ⟨hname, hp, hms⟩
  · refine reads_next.bind fun _ _ => reads_ident.bind fun name hname => ?_
    exact (reads_expect _).bind fun _ _ => hms.bind fun ms hms => reads_pure ⟨hname, hms⟩
  · refine reads_next.bind fun _ _ => reads_ident.bind fun name hname => ?_
    refine (reads_expect _).bind fun _ _ => ?_
    refine (Ty.reads_unapplied (Ty.parser_reads n) n).bind fun type htype => ?_
    refine (reads_expect _).bind fun _ _ => ?_
    exact (reads_memberList .assign (Expr.parser_reads n) [] (by simp) n).bind fun ms hms =>
      reads_pure ⟨hname, htype, hms⟩
  · refine reads_next.bind fun _ _ => reads_ident.bind fun x _ => ?_
    refine (reads_expect _).bind fun _ _ => (Ty.parser_reads n).bind fun s hs => ?_
    exact (reads_expect _).bind fun _ _ => reads_pure hs
  · refine reads_ite_of (fun hk => ?_) fun _ => ?_
    · refine reads_next.bind fun _ _ => reads_next.bind fun _ _ => ?_
      exact (Expr.parser_reads n).bind fun e he => (reads_expect _).bind fun _ _ =>
        reads_pure ⟨ht hk.1, he⟩
    · exact (Expr.parser_reads n).bind fun e he => (reads_expect _).bind fun _ _ => reads_pure he

theorem sourceName_paramName (k : Nat) : SourceName (paramName k) := by
  unfold SourceName paramName
  rw [String.toList_append, List.mem_append, not_or]
  exact ⟨by decide, dollar_not_mem_repr k⟩

theorem sourceName_dictName {trait : String} (h : SourceName trait) (k : Nat) :
    SourceName (dictName trait k) := by
  unfold SourceName dictName
  simp only [String.toList_append, List.mem_append, not_or]
  exact ⟨⟨⟨by decide, h⟩, by decide⟩, dollar_not_mem_repr k⟩

theorem source_recordType {line : Nat} {members : List (Member Ty)} {t : Ty}
    (hm : ∀ m ∈ members, m.Source Ty.Source) (h : recordType line members = .ok t) :
    t.Source := by
  unfold recordType at h
  split at h
  · cases h
  · obtain rfl : Ty.record none (members.map fun m => (m.name, m.item)) = t := by simpa using h
    refine Ty.source_record none fun f hf => ?_
    obtain ⟨m, hmem, rfl⟩ := List.mem_map.mp hf
    exact (hm m hmem).2

theorem source_foldr_lam (ps : List (String × Ty))
    (hp : ∀ p ∈ ps, SourceName p.1 ∧ p.2.Source) {body : Expr} (hb : body.Source) :
    (ps.foldr (fun p body => Expr.lam .blank p.1 (.typed p.2) body) body).Source := by
  induction ps with
  | nil => exact hb
  | cons p ps ih =>
    obtain ⟨hp, hps⟩ := List.forall_mem_cons.mp hp
    exact Expr.source_lam .blank hp.1 hp.2 (ih hps)

theorem source_constructor {members : List (Member Ty)}
    (hm : ∀ m ∈ members, m.Source Ty.Source) : (constructor members).Source := by
  refine source_foldr_lam _ ?_ (Expr.source_record _ ?_)
  · intro p hp
    obtain ⟨k, hk, rfl⟩ := List.mem_mapIdx.mp hp
    exact ⟨sourceName_paramName k, (hm _ (List.getElem_mem hk)).2⟩
  · intro f hf
    obtain ⟨k, hk, rfl⟩ := List.mem_mapIdx.mp hf
    exact Expr.source_var _ (sourceName_paramName k)

theorem source_implRecord {members : List (Member Expr)}
    (hm : ∀ m ∈ members, m.Source Expr.Source) : (implRecord members).Source := by
  have hfold : ∀ (ms : List (Member Expr)) (fs : List (String × Expr)),
      (∀ m ∈ ms, m.Source Expr.Source) → (∀ f ∈ fs, f.2.Source) →
      ∀ f ∈ ms.foldl (fun fs m => Assoc.insert m.name m.item fs) fs, f.2.Source := by
    intro ms
    induction ms with
    | nil => exact fun fs _ hfs => hfs
    | cons m ms ih =>
      intro fs hms hfs
      obtain ⟨hm, hms⟩ := List.forall_mem_cons.mp hms
      refine ih _ hms fun f hf => ?_
      rcases Assoc.mem_insert hf with rfl | hf
      · exact hm.2
      · exact hfs f hf
  exact Expr.source_record _ (hfold members [] hm (by simp))

theorem source_desugar {k : Nat} {item : Item} {ds : List Decl} (hi : item.Source)
    (h : item.desugar k = .ok ds) : ∀ d ∈ ds, d.Source := by
  cases item with
  | assign line x e =>
    obtain rfl : [Decl.stmt (.assign line x e)] = ds := by simpa [desugar] using h
    exact List.forall_mem_singleton.mpr hi
  | typedef line x t =>
    obtain rfl : [Decl.typedef line x t] = ds := by simpa [desugar] using h
    exact List.forall_mem_singleton.mpr hi
  | eval line e =>
    obtain rfl : [Decl.stmt (.eval line e)] = ds := by simpa [desugar] using h
    exact List.forall_mem_singleton.mpr hi
  | trait line name params members =>
    obtain ⟨hname, hp, hm⟩ := hi
    simp only [desugar] at h
    split at h
    · rename_i a
      split at h
      · cases h
      · rename_i t ht
        obtain rfl := Except.ok.inj h
        have ha : SourceName a := hp a List.mem_cons_self
        refine List.forall_mem_cons.mpr ⟨?_, ?_⟩
        · exact List.forall_mem_cons.mpr ⟨ha, source_recordType hm ht⟩
        · intro d hd
          obtain ⟨m, hmem, rfl⟩ := List.mem_map.mp hd
          exact ⟨(hm m hmem).1, List.forall_mem_cons.mpr ⟨ha, (hm m hmem).2⟩⟩
    · cases h
  | struct line name members =>
    obtain ⟨hname, hm⟩ := hi
    simp only [desugar] at h
    split at h
    · cases h
    · rename_i t ht
      obtain rfl := Except.ok.inj h
      refine List.forall_mem_cons.mpr ⟨source_recordType hm ht, ?_⟩
      exact List.forall_mem_singleton.mpr ⟨hname, source_constructor hm⟩
  | impl line trait type members =>
    obtain ⟨htrait, htype, hm⟩ := hi
    simp only [desugar] at h
    obtain rfl := Except.ok.inj h
    have happ : (Ty.app none (.name none trait) type).Source :=
      List.forall_mem_append.mpr ⟨List.forall_mem_singleton.mpr htrait, htype⟩
    have hdict := sourceName_dictName htrait k
    refine List.forall_mem_cons.mpr ⟨⟨hdict, ?_⟩, List.forall_mem_singleton.mpr ?_⟩
    · exact Expr.source_typed rfl rfl (source_implRecord hm) happ
    · exact ⟨htype, Expr.source_var _ hdict⟩

theorem source_desugarAll {k : Nat} {done : List Decl} {items : List Item} {ds : List Decl}
    (hd : ∀ d ∈ done, d.Source) (hi : ∀ i ∈ items, i.Source)
    (h : desugarAll k done items = .ok ds) : ∀ d ∈ ds, d.Source := by
  induction items generalizing k done with
  | nil =>
    obtain rfl : done.reverse = ds := by simpa [desugarAll] using h
    simpa using hd
  | cons item items ih =>
    obtain ⟨hitem, hitems⟩ := List.forall_mem_cons.mp hi
    unfold desugarAll at h
    split at h
    · cases h
    · rename_i new hnew
      refine ih (fun d hmem => ?_) hitems h
      rcases List.mem_append.mp hmem with hmem | hmem
      · exact source_desugar hitem hnew d (List.mem_reverse.mp hmem)
      · exact hd d hmem

end Item

namespace Program

open TraitCalculus.Parser

theorem reads_itemList (bound : Nat) (done : List Item) (hd : ∀ i ∈ done, i.Source) (n : Nat) :
    Reads (itemList bound done n) fun items => ∀ i ∈ items, i.Source := by
  induction n generalizing done with
  | zero => exact reads_fail _
  | succ n ih =>
    intro finish ts items rest hf hts h
    unfold itemList at h
    split_ifs at h with he
    · obtain ⟨rfl, rfl⟩ : done.reverse = items ∧ ts = rest := by simpa using h
      exact ⟨by simpa using hd, hts⟩
    · split at h
      · cases h
      · rename_i item mid hitem
        have hdrop : ∀ t ∈ ts.dropWhile (·.kind = .semicolon), t.Source :=
          fun t ht => hts t ((List.dropWhile_sublist _).subset ht)
        obtain ⟨hsrc, hmid⟩ := Item.parser_reads bound finish _ item mid hf hdrop hitem
        exact ih _ (List.forall_mem_cons.mpr ⟨hsrc, hd⟩) finish mid items rest hf hmid h

theorem source_ofText {code : String} {p : Program Item} (h : ofText code = .ok p) :
    ∀ i ∈ p.stmts, i.Source := by
  unfold ofText at h
  split at h
  · cases h
  · rename_i tokens htokens
    unfold parse at h
    split at h
    · cases h
    · rename_i items rest hitems
      obtain rfl := Except.ok.inj h
      exact (reads_itemList _ [] (by simp) _ _ _ items rest (Token.source_finishOf tokens)
        (Token.source_ofText htokens) hitems).1

/-- The declarations of a text hold names of the source only. -/
theorem source_desugarText {code : String} {p : Program Decl} (h : desugarText code = .ok p) :
    ∀ d ∈ p.stmts, d.Source := by
  unfold desugarText at h
  split at h
  · cases h
  · rename_i items hitems
    unfold desugar at h
    split at h
    · cases h
    · rename_i ds hds
      obtain rfl : (⟨items.line, ds⟩ : Program Decl) = p := by simpa [Except.mapError] using h
      exact Item.source_desugarAll (by simp) (source_ofText hitems) hds

end Program

end TraitCalculus
