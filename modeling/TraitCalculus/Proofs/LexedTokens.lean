import TraitCalculus.Proofs.SourceNames
import TraitCalculus.Proofs.ReadingTallies

/-! Trees that are read from tokens of the lexer. Their names are identifiers, their integers have no
sign and can be written, and their texts hold no escapes: they have source forms, and the words of
their printed forms are spelled as the lexer knows them. -/
namespace TraitCalculus

open TraitCalculus.Parser

namespace Lexeme

/-- Words are identifiers or keywords. -/
theorem wordKind_ne {k : Kind} (hk : k ∉ .ident :: Kind.keywords.map (·.2)) (w : List Char) :
    wordKind w ≠ k := by
  rw [List.mem_cons, not_or] at hk
  obtain ⟨hident, hkeyword⟩ := hk
  unfold wordKind
  cases hlookup : Kind.keywords.lookup (String.ofList w) with
  | none => exact fun h => hident h.symm
  | some k' =>
    rintro rfl
    exact hkeyword (List.mem_map_of_mem (Assoc.mem_of_lookup hlookup))

/-- A number starts with a digit. -/
theorem first_number {c : Char} {cs : List Char} (h : (first c cs).kind = .number) :
    Text.isDigit c ∧ ∃ ds, (first c cs).text = c :: ds := by
  unfold first at h ⊢
  split_ifs at h ⊢ with h₁ h₂ h₃ h₄ h₅
  · exact ⟨h₁, _, rfl⟩
  · exact absurd h (quoted_kind_ne (by decide) c cs)
  · exact absurd h (wordKind_ne (by decide) _)
  · exact absurd h (symbol_kind_ne (by decide) c cs)

/-- No escape is left in a text. -/
theorem unescape_unescape (cs : List Char) : unescape (unescape cs) = unescape cs := by
  fun_induction unescape cs with
  | case1 cs ih =>
    rw [unescape, ih]
    simp
  | case2 c cs hc ih =>
    rw [unescape, ih]
    rintro cs' rfl hcs'
    -- the letter behind the backslash would have stood behind it before
    fun_cases unescape cs with
    | case1 cs => simp [unescape] at hcs'
    | case2 d ds hd =>
      simp [unescape] at hcs'
      exact hc ds rfl (by rw [hcs'.1])
    | case3 => simp [unescape] at hcs'
  | case3 => rfl

end Lexeme

/-- A token whose text is one that the lexer gives to its kind. -/
structure Token.Lexed (t : Token) : Prop where
  ident : t.kind = .ident → Identifier t.text
  number : t.kind = .number → ∃ c cs, t.text.toList = c :: cs ∧ Text.isDigit c
  string : t.kind = .string → Lexeme.unescape t.text.toList = t.text.toList

namespace Lexeme

theorem value_of_kind {x : Lexeme} {k : Kind} (h : x.kind = k) (hk : k ≠ .string) :
    x.value.toList = x.text := by
  rw [value, if_neg (h ▸ hk), String.toList_ofList]

theorem identifier_of_first {c : Char} {cs : List Char} (h : (first c cs).kind = .ident) :
    Identifier (first c cs).value := by
  obtain ⟨hc, htext⟩ := first_ident h
  have hkind : (first c cs).kind = wordKind (c :: cs.takeWhile isWordChar) := by
    rw [first_of_isWordStart hc]
  have hvalue : (first c cs).value.toList = c :: cs.takeWhile isWordChar := by
    rw [value_of_kind h (by decide), htext]
  constructor
  · have hall : (cs.takeWhile isWordChar).all isWordChar :=
      List.all_eq_true.mpr fun d => List.mem_takeWhile_imp
    rw [hvalue, isLetters, hc, hall]
    rfl
  · rw [hvalue, ← hkind, h]

end Lexeme

/-- What the lexer makes of a text. -/
theorem Token.lexed_ofText {code : String} {tokens : List Token} (h : ofText code = .ok tokens) :
    ∀ t ∈ tokens, t.Lexed := by
  refine forall_mem_ofText (fun c cs line column => ⟨?_, ?_, ?_⟩) h
  · exact Lexeme.identifier_of_first
  · intro hk
    obtain ⟨hc, ds, hds⟩ := Lexeme.first_number hk
    exact ⟨c, ds, (Lexeme.value_of_kind hk (by decide)).trans hds, hc⟩
  · intro hk
    have hstring : (Lexeme.first c cs).kind = .string := hk
    rw [Lexeme.value, if_pos hstring, String.toList_ofList, Lexeme.unescape_unescape]

/-- All these tokens are as the lexer makes them. -/
def LexedAll (ts : List Token) : Prop := ∀ t ∈ ts, t.Lexed

theorem lexedAll_cons {t : Token} {ts : List Token} : LexedAll (t :: ts) ↔ t.Lexed ∧ LexedAll ts :=
  List.forall_mem_cons

theorem LexedAll.tail {t : Token} {ts : List Token} (h : LexedAll (t :: ts)) : LexedAll ts :=
  (lexedAll_cons.mp h).2

theorem LexedAll.identifier {t : Token} {ts : List Token} (h : LexedAll (t :: ts))
    (ht : t.kind = .ident) : Identifier t.text := (lexedAll_cons.mp h).1.ident ht

theorem LexedAll.skips {k : Kind} {ts us : List Token} (h : LexedAll ts) (hskip : Skips k ts us) :
    LexedAll us := by
  cases hskip with
  | keep ts => exact h
  | skip _ => exact h.tail

theorem lexedAll_listed {α : Type} {lead : α → List Token → List Token → Prop} {close : Kind}
    {items : List (α × List Token × List Token)} {ts rest : List Token} {L P : α → Prop}
    (h : Listed lead close items ts rest)
    (hlead : ∀ a ts start, lead a ts start → LexedAll ts → L a ∧ LexedAll start)
    (hitems : ∀ i ∈ items, LexedAll i.2.1 → P i.1 ∧ LexedAll i.2.2) (hts : LexedAll ts) :
    (∀ a ∈ items.map (·.1), L a ∧ P a) ∧ LexedAll rest := by
  induction h with
  | nil _ => exact ⟨nofun, hts.tail⟩
  | @cons a ts start stop us rest items ha hskip _ ih =>
    obtain ⟨hitem, hmore⟩ := List.forall_mem_cons.mp hitems
    obtain ⟨hL, hstart⟩ := hlead a ts start ha hts
    obtain ⟨hP, hstop⟩ := hitem hstart
    obtain ⟨hall, hrest⟩ := ih hmore (hstop.skips hskip)
    exact ⟨List.forall_mem_cons.mpr ⟨⟨hL, hP⟩, hall⟩, hrest⟩

theorem lexedAll_labelled {α : Type} {sign : Kind} (f : String × α) (ts start : List Token)
    (h : Labelled sign f ts start) (hts : LexedAll ts) : Identifier f.1 ∧ LexedAll start := by
  obtain ⟨l, c, hl, htext, -, rfl⟩ := h
  exact ⟨htext ▸ hts.identifier hl, hts.tail.tail⟩

theorem lexedAll_bounded {bs : List String} {ts rest : List Token} (h : Bounded bs ts rest)
    (hts : LexedAll ts) : (∀ b ∈ bs, Identifier b) ∧ LexedAll rest := by
  have hnamed {bs : List String} {ts rest : List Token} (h : Named bs ts rest) (hts : LexedAll ts) :
      (∀ b ∈ bs, Identifier b) ∧ LexedAll rest := by
    induction h with
    | nil _ => exact ⟨nofun, hts⟩
    | cons hx hskip _ ih =>
      obtain ⟨hxs, hrest⟩ := ih (hts.tail.skips hskip)
      exact ⟨List.forall_mem_cons.mpr ⟨hts.identifier hx, hxs⟩, hrest⟩
  cases h with
  | none _ => exact ⟨nofun, hts.tail⟩
  | some _ hbs _ =>
    obtain ⟨hall, hrest⟩ := hnamed hbs hts.tail
    exact ⟨hall, hrest.tail⟩

/-- Words of fixed spelling. -/
theorem spelled_fixed {w : Word} (h : w.1 ∉ [.ident, .number, .string, .blank, .comment, .mismatch]) :
    (Mark.word w).Spelled := by
  obtain ⟨k, s⟩ := w
  cases k <;> first | trivial | simp at h

theorem spelledAll_commas {mss : List (List Mark)} :
    SpelledAll (commaGap.intercalate mss) ↔ ∀ ms ∈ mss, SpelledAll ms :=
  spelledAll_intercalate (by simp [commaGap, spelled_fixed])

/-- A type read from tokens of the lexer has a source form, and its names are identifiers. -/
theorem Ty.Reading.spelled {k : Nat} {u : Ty} {ts rest : List Token} (h : Ty.Reading k u ts rest)
    (hts : LexedAll ts) : (u.hasForm ∧ SpelledAll u.script) ∧ LexedAll rest := by
  induction h with
  | name ht => exact ⟨⟨rfl, by simpa [script] using hts.identifier ht⟩, hts.tail⟩
  | parens _ _ _ ih =>
    obtain ⟨hu, hrest⟩ := ih hts.tail
    exact ⟨hu, hrest.tail⟩
  | list _ _ _ ih =>
    obtain ⟨hu, hrest⟩ := ih hts.tail
    exact ⟨⟨hu.1, by simp [script, spelled_fixed, hu.2]⟩, hrest.tail⟩
  | @record l fs _ _ _ hfs hlabels _ ih =>
    obtain ⟨hall, hrest⟩ := lexedAll_listed (P := fun f => f.2.hasForm ∧ SpelledAll f.2.script) hfs
      lexedAll_labelled ih hts.tail
    refine ⟨⟨?_, ?_⟩, hrest⟩
    · rw [hasForm, Bool.and_eq_true, decide_eq_true_eq, List.map_map, hasFormFields_iff]
      exact ⟨hlabels, fun f hf => (hall f hf).2.1⟩
    · have hfields : ∀ ms ∈ scriptFields (fs.map (·.1)), SpelledAll ms := by
        rw [scriptFields_eq, List.forall_mem_map]
        intro f hf
        simp [spelled_fixed, hall f hf]
      simpa [script, spelled_fixed, spelledAll_commas] using hfields
  | app _ _ ihf iha =>
    obtain ⟨hf, hmid⟩ := ihf hts
    obtain ⟨ha, hrest⟩ := iha hmid
    exact ⟨by simp [hasForm, script, hf, ha], hrest⟩
  | arrow _ _ _ ihd ihc =>
    obtain ⟨hd, hmid⟩ := ihd hts
    obtain ⟨hc, hrest⟩ := ihc hmid.tail
    exact ⟨by simp [hasForm, script, spelled_fixed, hd, hc], hrest⟩
  | all _ hx hbs _ ih =>
    obtain ⟨hbs, hmid⟩ := lexedAll_bounded hbs hts.tail.tail
    obtain ⟨hu, hrest⟩ := ih hmid
    exact ⟨by simpa [hasForm, script, spelled_fixed, hu] using ⟨hts.tail.identifier hx, hbs⟩, hrest⟩
  | loosen _ ih => exact ih hts

namespace Expr

theorem spelled_bool (b : Bool) : (Mark.word (boolWord b)).Spelled := by
  cases b <;> exact spelled_fixed (by decide)

theorem spelled_int {t : Token} (ht : t.Lexed) (hk : t.kind = .number) {i : Int}
    (h : Text.readInteger t.text = .ok i) :
    (Value.int i).hasForm ∧ (Mark.word (Value.int i).word).Spelled := by
  obtain ⟨c, cs, hcs, hc⟩ := ht.number hk
  obtain ⟨hpos, hlen⟩ := Text.readInteger_bounds hcs hc h
  obtain ⟨n, rfl⟩ := Int.eq_ofNat_of_zero_le hpos
  exact ⟨by simp [Value.hasForm, hlen], n, rfl⟩

/-- An expression read from tokens of the lexer has a source form, and the words of its printed form
are spelled as the lexer knows them. -/
theorem Reading.spelled {k : Nat} {e : Expr} {ts rest : List Token} (h : Reading k e ts rest)
    (hts : LexedAll ts) : (e.hasForm ∧ SpelledAll e.script) ∧ LexedAll rest := by
  have hblank (line : Nat) : (Note.atLine line).type.isNone := rfl
  induction h with
  | var ht => exact ⟨⟨rfl, by simpa [script] using hts.identifier ht⟩, hts.tail⟩
  | @int t i rest ht hi =>
    obtain ⟨hform, hword⟩ := spelled_int (lexedAll_cons.mp hts).1 ht hi
    exact ⟨by simp [hasForm, script, hblank, hform, hword], hts.tail⟩
  | @text t rest ht =>
    have hword : (Mark.word (Value.text t.text).word).Spelled := (lexedAll_cons.mp hts).1.string ht
    exact ⟨⟨rfl, by simpa [script] using hword⟩, hts.tail⟩
  | @bool t b rest ht => exact ⟨⟨rfl, by simpa [script, Value.word] using spelled_bool b⟩, hts.tail⟩
  | parens _ _ _ ih =>
    obtain ⟨he, hrest⟩ := ih hts.tail
    exact ⟨he, hrest.tail⟩
  | @list l es _ _ _ hes _ ih =>
    obtain ⟨hall, hrest⟩ := lexedAll_listed (L := fun _ => True)
      (P := fun e => e.hasForm ∧ SpelledAll e.script) hes (fun _ _ _ hlead h => ⟨trivial, hlead ▸ h⟩) ih
      hts.tail
    refine ⟨⟨?_, ?_⟩, hrest⟩
    · rw [hasForm, hblank, Bool.true_and, hasFormItems_iff]
      exact fun e he => (hall e he).2.1
    · have hitems : ∀ ms ∈ scriptItems (es.map (·.1)), SpelledAll ms := by
        rw [scriptItems_eq, List.forall_mem_map]
        exact fun e he => (hall e he).2.2
      simpa [script, spelled_fixed, spelledAll_commas] using hitems
  | @record l fs _ _ _ hfs hlabels _ ih =>
    obtain ⟨hall, hrest⟩ := lexedAll_listed (P := fun f => f.2.hasForm ∧ SpelledAll f.2.script) hfs
      lexedAll_labelled ih hts.tail
    refine ⟨⟨?_, ?_⟩, hrest⟩
    · rw [hasForm, hblank, Bool.true_and, Bool.and_eq_true, decide_eq_true_eq, List.map_map,
        hasFormFields_iff]
      exact ⟨hlabels, fun f hf => (hall f hf).2.1⟩
    · have hfields : ∀ ms ∈ scriptFields (fs.map (·.1)), SpelledAll ms := by
        rw [scriptFields_eq, List.forall_mem_map]
        intro f hf
        simp [spelled_fixed, hall f hf]
      simpa [script, spelled_fixed, spelledAll_commas] using hfields
  | proj _ _ hl ih =>
    obtain ⟨he, hmid⟩ := ih hts
    exact ⟨by simpa [hasForm, script, spelled_fixed, hblank, he] using hmid.tail.identifier hl,
      hmid.tail.tail⟩
  | ascribe _ _ ht _ ih | tapp _ _ ht ih =>
    obtain ⟨he, hmid⟩ := ih hts
    obtain ⟨ht, hrest⟩ := ht.spelled hmid.tail
    exact ⟨by simp [hasForm, script, spelled_fixed, hblank, he, ht], hrest⟩
  | app _ _ ihf iha =>
    obtain ⟨hf, hmid⟩ := ihf hts
    obtain ⟨ha, hrest⟩ := iha hmid
    exact ⟨by simp [hasForm, script, hblank, hf, ha], hrest⟩
  | un op _ _ ih =>
    obtain ⟨he, hrest⟩ := ih hts.tail
    have hop : (Mark.word op.word).Spelled := by
      cases op <;> exact spelled_fixed (by decide)
    exact ⟨by simp [hasForm, script, hop, hblank, he], hrest⟩
  | bin op _ _ _ ihl ihr =>
    obtain ⟨hl, hmid⟩ := ihl hts
    obtain ⟨hr, hrest⟩ := ihr hmid.tail
    have hop : (Mark.word op.word).Spelled := by
      cases op <;> exact spelled_fixed (by decide)
    exact ⟨by simp [hasForm, script, hop, hblank, hl, hr], hrest⟩
  | cond _ _ _ _ _ _ ihc ihy ihz =>
    obtain ⟨hc, hmid⟩ := ihc hts.tail
    obtain ⟨hy, hmid⟩ := ihy hmid.tail
    obtain ⟨hz, hrest⟩ := ihz hmid.tail
    exact ⟨by simp [hasForm, script, spelled_fixed, hblank, hc, hy, hz], hrest⟩
  | lam _ hx _ hu _ _ ih =>
    obtain ⟨hu, hmid⟩ := hu.spelled hts.tail.tail.tail
    obtain ⟨he, hrest⟩ := ih hmid.tail
    exact ⟨by simpa [hasForm, Param.hasForm, script, Param.script, spelled_fixed, hblank, hu, he] using
      hts.tail.identifier hx, hrest⟩
  | tlam _ hx hbs _ ih =>
    obtain ⟨hbs, hmid⟩ := lexedAll_bounded hbs hts.tail.tail
    obtain ⟨he, hrest⟩ := ih hmid
    exact ⟨by simpa [hasForm, script, spelled_fixed, hblank, he] using ⟨hts.tail.identifier hx, hbs⟩,
      hrest⟩
  | loosen _ ih => exact ih hts

end Expr

end TraitCalculus
