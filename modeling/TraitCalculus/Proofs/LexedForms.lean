import TraitCalculus.Proofs.PrintedForms
import TraitCalculus.Proofs.SourceNames

/-! The lexer on printed forms. Each mark of a printed form is cut off as a lexeme of its own, up to
the first text that holds a double quote or a newline. -/
namespace TraitCalculus

namespace Lexeme

/-- The lexer goes on behind the characters of the lexeme found last. -/
theorem cut_eq (done : List Lexeme) (skip : Nat) (cs : List Char) :
    cut done skip cs = done.reverse ++ all (cs.drop skip) := by
  have hdone (cs : List Char) : ∀ (done : List Lexeme) (skip : Nat),
      cut done skip cs = done.reverse ++ cut [] skip cs := by
    induction cs with
    | nil =>
      intro done skip
      cases skip <;> exact (List.append_nil _).symm
    | cons c cs ih =>
      intro done skip
      cases skip with
      | zero =>
        rw [cut, cut, ih (first c cs :: done), ih [first c cs], List.reverse_cons, List.append_assoc]
        rfl
      | succ skip => exact ih done skip
  have hskip (cs : List Char) : ∀ skip : Nat, cut [] skip cs = all (cs.drop skip) := by
    induction cs with
    | nil =>
      intro skip
      cases skip <;> rfl
    | cons c cs ih =>
      intro skip
      cases skip with
      | zero => rfl
      | succ skip => exact ih skip
  rw [hdone, hskip]

theorem all_cons (c : Char) (cs : List Char) :
    all (c :: cs) = first c cs :: all (cs.drop ((first c cs).text.length - 1)) :=
  cut_eq [first c cs] _ cs

/-- A lexeme that is known at the front, and the lexemes behind it. -/
theorem all_of_first {c : Char} {cs rest : List Char} {k : Kind}
    (h : first c (cs ++ rest) = ⟨k, c :: cs⟩) : all (c :: cs ++ rest) = ⟨k, c :: cs⟩ :: all rest := by
  rw [List.cons_append, all_cons, h]
  simp

end Lexeme

namespace Lexeme

open TraitCalculus.Text

theorem range_of_isWordStart {c : Char} (h : isWordStart c) :
    65 ≤ c.toNat ∧ c.toNat ≤ 90 ∨ c.toNat = 95 ∨ 97 ≤ c.toNat ∧ c.toNat ≤ 122 := by
  simp only [isWordStart, Bool.or_eq_true, Bool.and_eq_true, decide_eq_true_eq] at h
  rcases h with (⟨hlow, hhigh⟩ | ⟨hlow, hhigh⟩) | rfl
  · exact .inr (.inr ⟨hlow, hhigh⟩)
  · exact .inl ⟨hlow, hhigh⟩
  · exact .inr (.inl rfl)

theorem not_isDigit_of_isWordStart {c : Char} (h : isWordStart c) : isDigit c = false := by
  have hrange := range_of_isWordStart h
  exact not_isDigit_of_range (by omega) (by omega)

theorem ne_of_isWordStart {c d : Char} (h : isWordStart c) (hd : isWordStart d = false) : c ≠ d := by
  rintro rfl
  rw [h] at hd
  cases hd

theorem takeWhile_of_stop {p : Char → Bool} {cs rest : List Char} (hcs : ∀ c ∈ cs, p c)
    (hrest : ∀ c ∈ rest.head?, p c = false) : (cs ++ rest).takeWhile p = cs := by
  rw [List.takeWhile_append_of_pos hcs]
  cases rest with
  | nil => rw [List.takeWhile_nil, List.append_nil]
  | cons c rest =>
    have hc : ¬p c = true := Bool.eq_false_iff.mp (hrest c rfl)
    rw [List.takeWhile_cons_of_neg hc, List.append_nil]

theorem dropWhile_of_stop {p : Char → Bool} {cs rest : List Char} (hcs : ∀ c ∈ cs, p c)
    (hrest : ∀ c ∈ rest.head?, p c = false) : (cs ++ rest).dropWhile p = rest := by
  rw [List.dropWhile_append_of_pos hcs]
  cases rest with
  | nil => rfl
  | cons c rest =>
    have hc : ¬p c = true := Bool.eq_false_iff.mp (hrest c rfl)
    exact List.dropWhile_cons_of_neg hc

/-- A letter starts a word. -/
theorem first_of_isWordStart {c : Char} (hc : isWordStart c) (cs : List Char) : first c cs =
    ⟨wordKind (c :: cs.takeWhile isWordChar), c :: cs.takeWhile isWordChar⟩ := by
  have hquote : ¬(c = '"' ∨ c = '\x27') := by
    rintro (h | h)
    · exact ne_of_isWordStart hc (by decide) h
    · exact ne_of_isWordStart hc (by decide) h
  have hslash : ¬(c = '/' ∧ cs.head? = some '/') :=
    fun h => ne_of_isWordStart hc (by decide) h.1
  rw [first, not_isDigit_of_isWordStart hc, if_neg (by decide), if_neg hquote, if_neg hslash,
    if_pos hc]

/-- A word ends before a character that is none of its own. -/
theorem first_letters {c : Char} {cs rest : List Char} (hc : isWordStart c)
    (hcs : ∀ d ∈ cs, isWordChar d) (hrest : ∀ d ∈ rest.head?, isWordChar d = false) :
    first c (cs ++ rest) = ⟨wordKind (c :: cs), c :: cs⟩ := by
  rw [first_of_isWordStart hc, takeWhile_of_stop hcs hrest]

/-- A number ends before a character that is no digit and no point with a digit. -/
theorem first_digits {c : Char} {cs rest : List Char} (hc : isDigit c) (hcs : ∀ d ∈ cs, isDigit d)
    (hrest : ∀ d ∈ rest.head?, isDigit d = false) (hpoint : fraction rest = []) :
    first c (cs ++ rest) = ⟨.number, c :: cs⟩ := by
  rw [first, if_pos hc, number, takeWhile_of_stop hcs hrest, dropWhile_of_stop hcs hrest, hpoint,
    List.append_nil]

end Lexeme

/-- A text that can stand between double quotes. -/
def Quotable (s : String) : Prop := ∀ c ∈ s.toList, (c ≠ '"' && c ≠ '\n') = true

/-- Characters that make a word. -/
def Lexeme.isLetters : List Char → Bool
  | [] => false
  | c :: cs => isWordStart c && cs.all isWordChar

/-- A word that is no keyword. -/
def Identifier (x : String) : Prop :=
  Lexeme.isLetters x.toList ∧ Lexeme.wordKind x.toList = .ident

/-- The words of a printed form that do not come from a fixed list. -/
def Word.Spelled (w : Word) : Prop :=
  match w.1 with
  | .ident => Identifier w.2
  | .number => ∃ n : Nat, w.2 = toString n
  | .string => Lexeme.unescape w.2.toList = w.2.toList
  | .blank | .comment | .mismatch => False
  | _ => True

namespace Mark

def lexeme : Mark → Lexeme
  | gap => ⟨.blank, [' ']⟩
  | word w => ⟨w.1, w.spelling⟩

def Spelled : Mark → Prop
  | gap => True
  | word w => w.Spelled

def Quotable : Mark → Prop
  | gap => True
  | word w => w.1 = .string → TraitCalculus.Quotable w.2

/-- In front of these characters the mark is a lexeme of its own. -/
def LexedBefore (m : Mark) (rest : List Char) : Prop :=
  ∃ c cs, m.chars = c :: cs ∧ Lexeme.first c (cs ++ rest) = m.lexeme

end Mark

/-- Each mark that can be quoted is a lexeme of its own. -/
def Cuts : List Mark → Prop
  | [] => True
  | m :: ms => (m.Quotable → m.LexedBefore (textOf ms)) ∧ Cuts ms

theorem Cuts.cons {m : Mark} {ms : List Mark} (hm : m.LexedBefore (textOf ms)) (hms : Cuts ms) :
    Cuts (m :: ms) := ⟨fun _ => hm, hms⟩

theorem Mark.LexedBefore.all_eq {m : Mark} {ms : List Mark} (h : m.LexedBefore (textOf ms)) :
    Lexeme.all (textOf (m :: ms)) = m.lexeme :: Lexeme.all (textOf ms) := by
  obtain ⟨c, cs, hchars, hfirst⟩ := h
  have hlexeme : m.lexeme = ⟨m.lexeme.kind, c :: cs⟩ := by
    cases m <;> rw [← hchars] <;> rfl
  rw [hlexeme] at hfirst ⊢
  rw [textOf_cons, hchars]
  exact Lexeme.all_of_first hfirst

section

open Lexeme

theorem Identifier.exists_cons {x : String} (hx : Identifier x) :
    ∃ c cs, x.toList = c :: cs ∧ isWordStart c := by
  have hletters := hx.1
  cases hchars : x.toList with
  | nil =>
    rw [hchars] at hletters
    cases hletters
  | cons c cs =>
    rw [hchars] at hletters
    exact ⟨c, cs, rfl, (Bool.and_eq_true_iff.mp hletters).1⟩

theorem exists_cons_toString (n : Nat) : ∃ c cs, (toString n).toList = c :: cs ∧ c.isDigit := by
  have hne : (toString n).toList ≠ [] := by
    rw [Nat.toString_eq_repr, Nat.toList_repr]
    exact Nat.toDigits_ne_nil
  obtain ⟨c, cs, hcons⟩ := List.exists_cons_of_ne_nil hne
  exact ⟨c, cs, hcons, Text.isDigit_of_mem_toString (hcons ▸ List.mem_cons_self)⟩

/-- Characters that no word or number in front of them goes on with. -/
def Closes (cs : List Char) : Prop :=
  (∀ c ∈ cs.head?, isWordChar c = false ∧ Text.isDigit c = false) ∧ fraction cs = []

theorem closes_nil : Closes [] := ⟨nofun, rfl⟩

theorem closes_cons {c : Char} (hc : c ∈ [' ', ')', ']', '\x7d', ',', ':']) (cs : List Char) :
    Closes (c :: cs) := by
  simp only [List.mem_cons, List.not_mem_nil, or_false] at hc
  rcases hc with rfl | rfl | rfl | rfl | rfl | rfl <;>
    exact ⟨fun d hd => (Option.some.inj hd) ▸ (by decide), rfl⟩

/-- A point with no digit behind it. -/
theorem closes_dot {d : Char} (hd : Text.isDigit d = false) (cs : List Char) :
    Closes ('.' :: d :: cs) := by
  refine ⟨fun c hc => (Option.some.inj hc) ▸ (by decide), ?_⟩
  rw [fraction, if_neg (by rw [hd]; decide)]

/-- No blank, and no second half of an operator. -/
def opening (c : Char) : Bool := !isBlankChar c && c ≠ '>' && c ≠ '='

theorem opening_of_ne {c : Char} (h : ∀ d ∈ [' ', '\t', '\r', '\n', '>', '='], c ≠ d) :
    opening c := by
  simp only [List.forall_mem_cons] at h
  obtain ⟨hspace, htab, hreturn, hnewline, hgreater, hequal, -⟩ := h
  simp [opening, isBlankChar, hspace, htab, hreturn, hnewline, hgreater, hequal]

theorem opening_of_isWordStart {c : Char} (h : isWordStart c) : opening c := by
  have hnone : [' ', '\t', '\r', '\n', '>', '='].all (!isWordStart ·) := by decide
  exact opening_of_ne fun d hd =>
    ne_of_isWordStart h ((Bool.not_eq_true' _).mp (List.all_eq_true.mp hnone d hd))

theorem opening_of_isDigit {c : Char} (h : c.isDigit) : opening c := by
  have hnone : [' ', '\t', '\r', '\n', '>', '='].all (!Char.isDigit ·) := by decide
  exact opening_of_ne fun d hd => Text.ne_of_isDigit h (by simpa using List.all_eq_true.mp hnone d hd)

theorem not_isBlankChar_of_opening {c : Char} (h : opening c) : isBlankChar c = false := by
  simp only [opening, Bool.and_eq_true, Bool.not_eq_true'] at h
  exact h.1.1

variable {rest : List Char}

theorem lexedBefore_letters {w : Word} (hw : isLetters w.2.toList) (hk : wordKind w.2.toList = w.1)
    (hstring : w.1 ≠ .string) (hrest : Closes rest) : (Mark.word w).LexedBefore rest := by
  have hspelling : w.spelling = w.2.toList := if_neg hstring
  cases hchars : w.2.toList with
  | nil =>
    rw [hchars] at hw
    cases hw
  | cons c cs =>
    rw [hchars] at hw hk
    obtain ⟨hc, hcs⟩ := Bool.and_eq_true_iff.mp hw
    refine ⟨c, cs, hspelling.trans hchars, ?_⟩
    rw [first_letters hc (List.all_eq_true.mp hcs) (fun d hd => (hrest.1 d hd).1), Mark.lexeme,
      hspelling, hchars, hk]

theorem lexedBefore_ident {x : String} (hx : Identifier x) (hrest : Closes rest) :
    (Mark.word (.ident, x)).LexedBefore rest :=
  lexedBefore_letters hx.1 hx.2 (by simp) hrest

theorem lexedBefore_number {n : Nat} (hrest : Closes rest) :
    (Mark.word (.number, toString n)).LexedBefore rest := by
  obtain ⟨c, cs, hcons, -⟩ := exists_cons_toString n
  have hdigits : ∀ d ∈ c :: cs, Text.isDigit d :=
    fun d hd => Text.isDigit_of_isDigit (Text.isDigit_of_mem_toString (hcons ▸ hd))
  refine ⟨c, cs, hcons, ?_⟩
  rw [first_digits (hdigits c List.mem_cons_self) (fun d hd => hdigits d (List.mem_cons_of_mem c hd))
    (fun d hd => (hrest.1 d hd).2) hrest.2, ← hcons]
  rfl

/-- The keywords of printed forms. -/
def keywordMarks : List Word :=
  [(.forallWord, "forall"), (.implWord, "impl"), (.ifWord, "if"), (.thenWord, "then"),
    (.elseWord, "else"), (.trueWord, "true"), (.falseWord, "false")]

theorem lexedBefore_keyword {w : Word} (hw : w ∈ keywordMarks) (hrest : Closes rest) :
    (Mark.word w).LexedBefore rest := by
  simp only [keywordMarks, List.mem_cons, List.not_mem_nil, or_false] at hw
  rcases hw with rfl | rfl | rfl | rfl | rfl | rfl | rfl <;>
    exact lexedBefore_letters (by decide) (by decide) (by decide) hrest

/-- Marks that are lexemes of their own whatever follows. -/
def punctuation : List Word :=
  [(.lparen, "("), (.rparen, ")"), (.lbracket, "["), (.rbracket, "]"), (.lbrace, "\x7b"),
    (.rbrace, "\x7d"), (.dot, "."), (.comma, ","), (.colon, ":"), (.backslash, "\\"),
    (.atSign, "@"), (.mult, "*")]

theorem lexedBefore_punctuation {w : Word} (hw : w ∈ punctuation) :
    (Mark.word w).LexedBefore rest := by
  simp only [punctuation, List.mem_cons, List.not_mem_nil, or_false] at hw
  rcases hw with rfl | rfl | rfl | rfl | rfl | rfl | rfl | rfl | rfl | rfl | rfl | rfl <;>
    exact ⟨_, _, rfl, by cases rest <;> rfl⟩

/-- Operators stand between blanks. -/
theorem lexedBefore_binOp (op : BinOp) : (Mark.word op.word).LexedBefore (' ' :: rest) := by
  cases op <;> exact ⟨_, _, rfl, rfl⟩

theorem BinOp.exists_cons (op : BinOp) :
    ∃ c cs, op.word.spelling = c :: cs ∧ isBlankChar c = false := by
  cases op <;> exact ⟨_, _, rfl, by decide⟩

theorem lexedBefore_symbol {w : Word} (hw : w ∈ [(.arrow, "->"), (.add, "+"), (.assign, "=")]) :
    (Mark.word w).LexedBefore (' ' :: rest) := by
  simp only [List.mem_cons, List.not_mem_nil, or_false] at hw
  rcases hw with rfl | rfl | rfl <;> exact ⟨_, _, rfl, rfl⟩

theorem lexedBefore_unOp (op : UnOp) {c : Char} (hc : opening c) :
    (Mark.word op.word).LexedBefore (c :: rest) := by
  simp only [opening, Bool.and_eq_true, decide_eq_true_eq] at hc
  cases op with
  | not =>
    have hpair : pairKind? '!' c = none := by
      simp [pairKind?, hc.2]
    refine ⟨'!', [], rfl, ?_⟩
    show symbol '!' (c :: rest) = _
    rw [symbol, List.head?_cons, Option.bind_some, hpair]
    rfl
  | neg =>
    have hpair : pairKind? '-' c = none := by
      simp [pairKind?, hc.1.2]
    refine ⟨'-', [], rfl, ?_⟩
    show symbol '-' (c :: rest) = _
    rw [symbol, List.head?_cons, Option.bind_some, hpair]
    rfl

theorem lexedBefore_gap {c : Char} (hc : isBlankChar c = false) : Mark.gap.LexedBefore (c :: rest) := by
  refine ⟨' ', [], rfl, ?_⟩
  show (⟨.blank, ' ' :: (c :: rest).takeWhile isBlankChar⟩ : Lexeme) = _
  rw [List.takeWhile_cons_of_neg (Bool.eq_false_iff.mp hc)]
  rfl

/-- A text without quotes and newlines ends at its closing quote. -/
theorem lexedBefore_text {t : String} (ht : Quotable t) : (Mark.word (.string, t)).LexedBefore rest := by
  refine ⟨'"', t.toList ++ ['"'], rfl, ?_⟩
  have hbody : (t.toList ++ '"' :: rest).takeWhile (fun c => c ≠ '"' && c ≠ '\n') = t.toList :=
    takeWhile_of_stop ht fun c hc => (Option.some.inj hc) ▸ (by decide)
  show quoted '"' (t.toList ++ ['"'] ++ rest) = _
  rw [List.append_assoc, List.singleton_append, quoted, hbody, List.drop_left]
  rfl

/-- Marks that are cut as they are wherever what follows closes them, with a character in front that
nothing before them goes on with. -/
structure Phrase (ms : List Mark) : Prop where
  cuts : ∀ rest, Closes (textOf rest) → Cuts rest → Cuts (ms ++ rest)
  opens : ∃ c cs, textOf ms = c :: cs ∧ opening c

variable {ms ms' : List Mark} {w : Word}

/-- One word. -/
theorem phrase_word {c : Char} {cs : List Char} (hchars : w.spelling = c :: cs) (hc : opening c)
    (h : ∀ rest, Closes rest → (Mark.word w).Quotable → (Mark.word w).LexedBefore rest) :
    Phrase [.word w] where
  cuts rest hclose hrest := ⟨fun hq => h (textOf rest) hclose hq, hrest⟩
  opens := ⟨c, cs, by rw [textOf_cons, Mark.chars, hchars, textOf_nil, List.append_nil], hc⟩

theorem phrase_ident {x : String} (hx : Identifier x) : Phrase [.word (.ident, x)] := by
  obtain ⟨c, cs, hchars, hc⟩ := hx.exists_cons
  exact phrase_word hchars (opening_of_isWordStart hc) fun rest hrest _ => lexedBefore_ident hx hrest

theorem phrase_keyword (hw : w ∈ keywordMarks) : Phrase [.word w] := by
  have hopen : ∀ w ∈ keywordMarks, ∃ c cs, w.spelling = c :: cs ∧ opening c := by
    simp only [keywordMarks, List.forall_mem_cons]
    exact ⟨⟨_, _, rfl, by decide⟩, ⟨_, _, rfl, by decide⟩, ⟨_, _, rfl, by decide⟩,
      ⟨_, _, rfl, by decide⟩, ⟨_, _, rfl, by decide⟩, ⟨_, _, rfl, by decide⟩,
      ⟨_, _, rfl, by decide⟩, nofun⟩
  obtain ⟨c, cs, hchars, hc⟩ := hopen w hw
  exact phrase_word hchars hc fun rest hrest _ => lexedBefore_keyword hw hrest

theorem phrase_value {v : Value} (hv : v.word.Spelled) : Phrase [.word v.word] := by
  cases v with
  | int i =>
    obtain ⟨n, hn⟩ := hv
    obtain ⟨c, cs, hchars, hc⟩ := exists_cons_toString n
    have hw : (Value.int i).word = (.number, toString n) := congrArg (Prod.mk Kind.number) hn
    rw [hw]
    exact phrase_word hchars (opening_of_isDigit hc) fun rest hrest _ => lexedBefore_number hrest
  | text t =>
    exact phrase_word rfl (by decide) fun rest _ hq => lexedBefore_text (hq rfl)
  | bool b => cases b <;> exact phrase_keyword (by decide)

/-- What stands before and behind a phrase stays as it is. -/
theorem Phrase.opens_append (h : Phrase ms) (ms' : List Mark) :
    ∃ c cs, textOf (ms ++ ms') = c :: cs ∧ opening c := by
  obtain ⟨c, cs, htext, hc⟩ := h.opens
  exact ⟨c, cs ++ textOf ms', by rw [textOf_append, htext, List.cons_append], hc⟩

/-- Two phrases with a blank between them. -/
theorem Phrase.beside (h : Phrase ms) (h' : Phrase ms') : Phrase (ms ++ .gap :: ms') where
  cuts rest hclose hrest := by
    rw [List.append_assoc, List.cons_append]
    have hsecond : Cuts (ms' ++ rest) := h'.cuts rest hclose hrest
    obtain ⟨c, cs, htext, hc⟩ := h'.opens_append rest
    have hgap : Cuts (.gap :: (ms' ++ rest)) := by
      apply Cuts.cons _ hsecond
      rw [htext]
      exact lexedBefore_gap (not_isBlankChar_of_opening hc)
    exact h.cuts _ (closes_cons (by decide) _) hgap
  opens := h.opens_append _

/-- Two phrases with a sign between them that stands between blanks. -/
theorem Phrase.signed (h : Phrase ms) {c : Char} {cs : List Char} (hchars : w.spelling = c :: cs)
    (hc : isBlankChar c = false) (hw : ∀ rest, (Mark.word w).LexedBefore (' ' :: rest))
    (h' : Phrase ms') : Phrase (ms ++ .gap :: .word w :: .gap :: ms') where
  cuts rest hclose hrest := by
    have hsecond : Cuts (ms' ++ rest) := h'.cuts rest hclose hrest
    obtain ⟨d, ds, htext, hd⟩ := h'.opens_append rest
    have hgap : Cuts (.gap :: (ms' ++ rest)) := by
      apply Cuts.cons _ hsecond
      rw [htext]
      exact lexedBefore_gap (not_isBlankChar_of_opening hd)
    have hsign : Cuts (.word w :: .gap :: (ms' ++ rest)) := Cuts.cons (hw _) hgap
    have hall : Cuts (.gap :: .word w :: .gap :: (ms' ++ rest)) := by
      apply Cuts.cons _ hsign
      rw [textOf_cons, Mark.chars, hchars]
      exact lexedBefore_gap hc
    rw [List.append_assoc, List.cons_append, List.cons_append, List.cons_append]
    exact h.cuts _ (closes_cons (by decide) _) hall
  opens := h.opens_append _

/-- Punctuation in front of a phrase. -/
theorem Phrase.after (h : Phrase ms) {c : Char} {cs : List Char} (hw : w ∈ punctuation)
    (hchars : w.spelling = c :: cs) (hc : opening c) : Phrase (.word w :: ms) where
  cuts rest hclose hrest := Cuts.cons (lexedBefore_punctuation hw) (h.cuts rest hclose hrest)
  opens := ⟨c, cs ++ textOf ms, by rw [textOf_cons, Mark.chars, hchars, List.cons_append], hc⟩

/-- A sign in front of a phrase. -/
theorem Phrase.negated (h : Phrase ms) (op : UnOp) : Phrase (.word op.word :: ms) where
  cuts rest hclose hrest := by
    obtain ⟨c, cs, htext, hc⟩ := h.opens_append rest
    apply Cuts.cons _ (h.cuts rest hclose hrest)
    show (Mark.word op.word).LexedBefore (textOf (ms ++ rest))
    rw [htext]
    exact lexedBefore_unOp op hc
  opens := by
    cases op with
    | not => exact ⟨'!', textOf ms, rfl, by decide⟩
    | neg => exact ⟨'-', textOf ms, rfl, by decide⟩

/-- A closing mark behind a phrase. -/
theorem Phrase.closed (h : Phrase ms) (hw : w ∈ punctuation)
    (hclose : ∀ rest, Closes rest → Closes (w.spelling ++ rest)) : Phrase (ms ++ [.word w]) where
  cuts rest hrest hcuts := by
    rw [List.append_assoc, List.singleton_append]
    apply h.cuts
    · exact hclose _ hrest
    · exact Cuts.cons (lexedBefore_punctuation hw) hcuts
  opens := h.opens_append _

/-- Parentheses around a phrase make a phrase. -/
theorem Phrase.wrapIf (h : Phrase ms) (b : Bool) : Phrase (wrapIf b ms) := by
  cases b with
  | false => exact h
  | true =>
    have hclosed : Phrase (ms ++ [.word (.rparen, ")")]) :=
      h.closed (by decide) fun rest _ => closes_cons (by decide) rest
    exact hclosed.after (by decide) rfl (by decide)

/-- A colon, comma or closing bracket behind a phrase. -/
theorem Phrase.punctuated (h : Phrase ms) (hw : w ∈ [(.colon, ":"), (.comma, ","), (.rparen, ")"),
    (.rbracket, "]"), (.rbrace, "\x7d")]) : Phrase (ms ++ [.word w]) := by
  simp only [List.mem_cons, List.not_mem_nil, or_false] at hw
  rcases hw with rfl | rfl | rfl | rfl | rfl <;>
    exact h.closed (by decide) fun rest _ => closes_cons (by decide) rest

/-- The dot behind a binder. -/
theorem Phrase.dotted (h : Phrase ms) : Phrase (ms ++ [.word (.dot, ".")]) := by
  refine h.closed (by decide) fun rest hrest => ?_
  cases rest with
  | nil => exact ⟨fun c hc => (Option.some.inj hc) ▸ (by decide), rfl⟩
  | cons d rest => exact closes_dot (hrest.1 d rfl).2 rest

theorem Phrase.label (h : Phrase ms) {x : String} (hx : Identifier x) :
    Phrase (ms ++ [.word (.dot, "."), .word (.ident, x)]) where
  cuts rest hclose hrest := by
    obtain ⟨c, cs, hchars, hc⟩ := hx.exists_cons
    have hlabel : Cuts (.word (.ident, x) :: rest) := Cuts.cons (lexedBefore_ident hx hclose) hrest
    have hdot : Cuts (.word (.dot, ".") :: .word (.ident, x) :: rest) :=
      Cuts.cons (lexedBefore_punctuation (by decide)) hlabel
    have htext : textOf (.word (.dot, ".") :: .word (.ident, x) :: rest) =
        '.' :: c :: (cs ++ textOf rest) := by
      simp [Mark.chars, Word.spelling, hchars]
    rw [List.append_assoc]
    apply h.cuts _ _ hdot
    rw [htext]
    exact closes_dot (not_isDigit_of_isWordStart hc) _
  opens := h.opens_append _

theorem phrase_commas {mss : List (List Mark)} (hne : mss ≠ []) (h : ∀ ms ∈ mss, Phrase ms) :
    Phrase (commaGap.intercalate mss) := by
  induction mss with
  | nil => exact absurd rfl hne
  | cons ms mss ih =>
    obtain ⟨hms, hmss⟩ := List.forall_mem_cons.mp h
    cases mss with
    | nil =>
      rw [List.intercalate_singleton]
      exact hms
    | cons ms' mss =>
      have hcomma : Phrase (ms ++ [.word (.comma, ",")]) := hms.punctuated (by decide)
      have hall := hcomma.beside (ih (List.cons_ne_nil _ _) hmss)
      rw [List.intercalate_cons_cons]
      simpa [commaGap] using hall

/-- Items between brackets or braces. -/
theorem phrase_listed {mss : List (List Mark)} (h : ∀ ms ∈ mss, Phrase ms) {left right : Word}
    (hpair : (left, right) ∈ [(((.lbracket, "["), (.rbracket, "]")) : Word × Word),
      ((.lbrace, "\x7b"), (.rbrace, "\x7d"))]) :
    Phrase (.word left :: commaGap.intercalate mss ++ [.word right]) := by
  have hinner : Phrase (commaGap.intercalate mss ++ [.word right]) := by
    cases mss with
    | nil =>
      simp only [List.mem_cons, List.not_mem_nil, or_false, Prod.mk.injEq] at hpair
      rcases hpair with ⟨rfl, rfl⟩ | ⟨rfl, rfl⟩ <;>
        exact phrase_word rfl (by decide) fun rest _ _ => lexedBefore_punctuation (by decide)
    | cons ms mss =>
      have hitems := phrase_commas (List.cons_ne_nil ms mss) h
      simp only [List.mem_cons, List.not_mem_nil, or_false, Prod.mk.injEq] at hpair
      rcases hpair with ⟨rfl, rfl⟩ | ⟨rfl, rfl⟩ <;> exact hitems.punctuated (by decide)
  simp only [List.mem_cons, List.not_mem_nil, or_false, Prod.mk.injEq] at hpair
  rcases hpair with ⟨rfl, rfl⟩ | ⟨rfl, rfl⟩ <;> exact hinner.after (by decide) rfl (by decide)

theorem phrase_bounds (h : Phrase ms) {bs : List String} (hbs : ∀ b ∈ bs, Identifier b) :
    Phrase (ms ++ boundScript bs) := by
  have hnames (b : String) (bs : List String) (hbs : ∀ c ∈ b :: bs, Identifier c) :
      Phrase ([.gap, .word (.add, "+"), .gap].intercalate
        ((b :: bs).map fun b => [.word (.ident, b)])) := by
    induction bs generalizing b with
    | nil => exact phrase_ident (hbs b List.mem_cons_self)
    | cons c bs ih =>
      obtain ⟨hb, hbs⟩ := List.forall_mem_cons.mp hbs
      exact (phrase_ident hb).signed rfl (by decide) (fun rest => lexedBefore_symbol (by decide))
        (ih c hbs)
  cases bs with
  | nil =>
    rw [boundScript, List.append_nil]
    exact h
  | cons b bs =>
    have himpl : Phrase [.word (.implWord, "impl")] := phrase_keyword (by decide)
    exact h.beside (himpl.beside (hnames b bs hbs))

end

/-- All marks are spelled as the lexer knows them. -/
def SpelledAll (ms : List Mark) : Prop := ∀ m ∈ ms, m.Spelled

section

variable {m : Mark} {w : Word} {ms ms' : List Mark}

@[simp] theorem spelledAll_nil : SpelledAll [] := nofun

@[simp] theorem spelledAll_cons : SpelledAll (m :: ms) ↔ m.Spelled ∧ SpelledAll ms :=
  List.forall_mem_cons

@[simp] theorem spelledAll_append : SpelledAll (ms ++ ms') ↔ SpelledAll ms ∧ SpelledAll ms' :=
  List.forall_mem_append

@[simp] theorem spelled_gap : Mark.gap.Spelled := trivial

@[simp] theorem spelled_ident {x : String} : (Mark.word (.ident, x)).Spelled ↔ Identifier x := Iff.rfl

@[simp] theorem spelledAll_wrapIf {b : Bool} : SpelledAll (wrapIf b ms) ↔ SpelledAll ms := by
  cases b with
  | false => exact Iff.rfl
  | true =>
    have hleft : (Mark.word (.lparen, "(")).Spelled := trivial
    have hright : (Mark.word (.rparen, ")")).Spelled := trivial
    simp [wrapIf, hleft, hright]

theorem forall_mem_intercalate {P : Mark → Prop} {sep : List Mark} {mss : List (List Mark)}
    (hsep : ∀ m ∈ sep, P m) : (∀ m ∈ sep.intercalate mss, P m) ↔ ∀ ms ∈ mss, ∀ m ∈ ms, P m := by
  induction mss with
  | nil => simp
  | cons ms mss ih =>
    cases mss with
    | nil => simp
    | cons ms' mss =>
      rw [List.intercalate_cons_cons, List.forall_mem_append, List.forall_mem_append, ih,
        List.forall_mem_cons (l := ms' :: mss)]
      exact ⟨fun h => ⟨h.1.1, h.2⟩, fun h => ⟨⟨h.1, hsep⟩, h.2⟩⟩

theorem forall_mem_bounds {P : Mark → Prop} (hgap : P .gap) (himpl : P (.word (.implWord, "impl")))
    (hplus : P (.word (.add, "+"))) {bs : List String} :
    (∀ m ∈ boundScript bs, P m) ↔ ∀ b ∈ bs, P (.word (.ident, b)) := by
  have hsep : ∀ m ∈ [.gap, .word (.add, "+"), .gap], P m := by
    simp [hgap, hplus]
  cases bs with
  | nil => simp [boundScript]
  | cons b bs =>
    rw [boundScript, List.forall_mem_cons, List.forall_mem_cons, List.forall_mem_cons,
      forall_mem_intercalate hsep, List.forall_mem_map]
    · simp [hgap, himpl]
    · exact List.cons_ne_nil b bs

theorem spelledAll_intercalate {sep : List Mark} {mss : List (List Mark)} (hsep : SpelledAll sep) :
    SpelledAll (sep.intercalate mss) ↔ ∀ ms ∈ mss, SpelledAll ms :=
  forall_mem_intercalate hsep

@[simp] theorem spelledAll_bounds {bs : List String} :
    SpelledAll (boundScript bs) ↔ ∀ b ∈ bs, Identifier b :=
  forall_mem_bounds trivial trivial trivial

end

namespace Ty

/-- A printed type is a phrase if its names are identifiers. -/
theorem phrase_script {t : Ty} (h : SpelledAll t.script) : Phrase t.script := by
  induction t using Ty.induction with
  | name line x => exact phrase_ident (spelledAll_cons.mp h).1
  | all line x bs body ih =>
    simp only [script, List.cons_append, spelledAll_cons, spelledAll_append, spelled_ident,
      spelledAll_bounds] at h
    obtain ⟨-, -, hx, hbs, -, -, hbody⟩ := h
    have hforall : Phrase [.word (.forallWord, "forall")] := phrase_keyword (by decide)
    have hbinder := (phrase_bounds (hforall.beside (phrase_ident hx)) hbs).dotted
    simpa [script] using hbinder.beside (ih hbody)
  | arrow line d c ihd ihc =>
    simp only [script, spelledAll_cons, spelledAll_append, spelledAll_wrapIf] at h
    obtain ⟨hd, -, -, -, hc⟩ := h
    exact ((ihd hd).wrapIf _).signed rfl (by decide) (fun rest => lexedBefore_symbol (by decide))
      ((ihc hc).wrapIf _)
  | app line f a ihf iha =>
    simp only [script, spelledAll_cons, spelledAll_append, spelledAll_wrapIf] at h
    obtain ⟨hf, -, ha⟩ := h
    exact ((ihf hf).wrapIf _).beside ((iha ha).wrapIf _)
  | list line t ih =>
    simp only [script, List.cons_append, spelledAll_cons, spelledAll_append] at h
    have hclosed : Phrase (t.script ++ [.word (.rbracket, "]")]) := (ih h.2.1).punctuated (by decide)
    exact hclosed.after (by decide) rfl (by decide)
  | emptyList =>
    have hnone : Identifier "None" := ⟨by decide, by decide⟩
    have hclosed := (phrase_ident hnone).punctuated (w := (.rbracket, "]")) (by decide)
    exact hclosed.after (by decide) rfl (by decide)
  | record line fs ih =>
    have hcomma : SpelledAll commaGap := by
      simp [SpelledAll, commaGap, Mark.Spelled, Word.Spelled]
    simp only [script, List.cons_append, spelledAll_cons, spelledAll_append,
      spelledAll_intercalate hcomma, scriptFields_eq, List.forall_mem_map, spelled_ident] at h
    refine phrase_listed ?_ (by decide)
    rw [scriptFields_eq, List.forall_mem_map]
    intro f hf
    obtain ⟨hlabel, -, -, hf'⟩ := h.2.1 f hf
    have hcolon := (phrase_ident hlabel).punctuated (w := (.colon, ":")) (by decide)
    exact hcolon.beside (ih f hf hf')

end Ty

theorem Param.phrase_script {p : Param} (h : SpelledAll p.script) {x : String} (hx : Identifier x) :
    Phrase (.word (.ident, x) :: p.script) := by
  have hcolon := (phrase_ident hx).punctuated (w := (.colon, ":")) (by decide)
  cases p with
  | typed t =>
    simp only [script, spelledAll_cons] at h
    exact hcolon.beside (Ty.phrase_script h.2.2)
  | dictionary =>
    have hstar : Phrase [.word (.mult, "*")] :=
      phrase_word rfl (by decide) fun rest _ _ => lexedBefore_punctuation (by decide)
    exact hcolon.beside hstar
  | erased => exact phrase_ident hx

namespace Expr

/-- A printed expression is a phrase if its words are spelled as the lexer knows them. -/
theorem phrase_script {e : Expr} (h : SpelledAll e.script) : Phrase e.script := by
  have hcomma : SpelledAll commaGap := by
    simp [SpelledAll, commaGap, Mark.Spelled, Word.Spelled]
  induction e using Expr.induction with
  | lam n x p body ih =>
    simp only [script, List.cons_append, spelledAll_cons, spelledAll_append, spelled_ident] at h
    obtain ⟨-, hx, hp, -, -, hbody⟩ := h
    have hparam := (Param.phrase_script hp hx).after (w := (.backslash, "\\")) (by decide) rfl
      (by decide)
    simpa [script] using hparam.dotted.beside (ih hbody)
  | tlam n x bs body ih =>
    simp only [script, List.cons_append, spelledAll_cons, spelledAll_append, spelled_ident,
      spelledAll_bounds] at h
    obtain ⟨-, hx, hbs, -, -, hbody⟩ := h
    have hbinder := (phrase_bounds (phrase_ident hx) hbs).after (w := (.backslash, "\\")) (by decide)
      rfl (by decide)
    simpa [script] using hbinder.dotted.beside (ih hbody)
  | cond n c y z ihc ihy ihz =>
    simp only [script, List.cons_append, List.append_assoc, spelledAll_cons, spelledAll_append,
      spelledAll_wrapIf] at h
    obtain ⟨-, -, hc, -, -, -, hy, -, -, -, hz⟩ := h
    have hif : Phrase [.word (.ifWord, "if")] := phrase_keyword (by decide)
    have hthen : Phrase [.word (.thenWord, "then")] := phrase_keyword (by decide)
    have helse : Phrase [.word (.elseWord, "else")] := phrase_keyword (by decide)
    have htest := hif.beside ((ihc hc).wrapIf (c.level < 1))
    have hyes := hthen.beside ((ihy hy).wrapIf (y.level < 1))
    have hno := helse.beside ((ihz hz).wrapIf (z.level < 1))
    simpa [script] using (htest.beside hyes).beside hno
  | bin n op l r ihl ihr =>
    simp only [script, spelledAll_cons, spelledAll_append, spelledAll_wrapIf] at h
    obtain ⟨hl, -, -, -, hr⟩ := h
    obtain ⟨c, cs, hchars, hc⟩ := op.exists_cons
    exact ((ihl hl).wrapIf _).signed hchars hc (fun rest => lexedBefore_binOp op) ((ihr hr).wrapIf _)
  | un n op e ih =>
    simp only [script, spelledAll_cons, spelledAll_wrapIf] at h
    exact ((ih h.2).wrapIf _).negated op
  | app n f a ihf iha =>
    simp only [script, spelledAll_cons, spelledAll_append, spelledAll_wrapIf] at h
    obtain ⟨hf, -, ha⟩ := h
    exact ((ihf hf).wrapIf _).beside ((iha ha).wrapIf _)
  | tapp n f t ih =>
    simp only [script, spelledAll_cons, spelledAll_append, spelledAll_wrapIf] at h
    obtain ⟨hf, -, -, ht⟩ := h
    have hat := (Ty.phrase_script ht).after (w := (.atSign, "@")) (by decide) rfl (by decide)
    exact ((ih hf).wrapIf _).beside hat
  | ascribe n e t ih =>
    simp only [script, spelledAll_cons, spelledAll_append, spelledAll_wrapIf] at h
    obtain ⟨he, -, -, ht⟩ := h
    have hcolon := ((ih he).wrapIf (e.level < 9)).punctuated (w := (.colon, ":")) (by decide)
    simpa [script] using hcolon.beside (Ty.phrase_script ht)
  | proj n e label ih =>
    simp only [script, spelledAll_cons, spelledAll_append, spelledAll_wrapIf, spelled_ident] at h
    exact ((ih h.1).wrapIf _).label h.2.2.1
  | var n x => exact phrase_ident (spelledAll_cons.mp h).1
  | val n v => exact phrase_value (spelledAll_cons.mp h).1
  | list n es ih =>
    simp only [script, List.cons_append, spelledAll_cons, spelledAll_append,
      spelledAll_intercalate hcomma, scriptItems_eq, List.forall_mem_map] at h
    refine phrase_listed ?_ (by decide)
    rw [scriptItems_eq, List.forall_mem_map]
    exact fun e he => ih e he (h.2.1 e he)
  | record n fs ih =>
    simp only [script, List.cons_append, spelledAll_cons, spelledAll_append,
      spelledAll_intercalate hcomma, scriptFields_eq, List.forall_mem_map, spelled_ident] at h
    refine phrase_listed ?_ (by decide)
    rw [scriptFields_eq, List.forall_mem_map]
    intro f hf
    obtain ⟨hlabel, -, -, -, hf'⟩ := h.2.1 f hf
    exact (phrase_ident hlabel).signed rfl (by decide) (fun rest => lexedBefore_symbol (by decide))
      (ih f hf hf')

end Expr

/-- Where all marks can be quoted, they are the lexemes. -/
theorem all_textOf {ms : List Mark} (hcuts : Cuts ms) (hq : ∀ m ∈ ms, m.Quotable) :
    Lexeme.all (textOf ms) = ms.map Mark.lexeme := by
  induction ms with
  | nil => rfl
  | cons m ms ih =>
    obtain ⟨hm, hms⟩ := List.forall_mem_cons.mp hq
    rw [(hcuts.1 hm).all_eq, ih hcuts.2 hms, List.map_cons]

theorem value_lexeme {w : Word} (hw : w.Spelled) : (Mark.word w).lexeme.value = w.2 := by
  show (if w.1 = .string then String.ofList (Lexeme.unescape (w.spelling.drop 1).dropLast)
    else String.ofList w.spelling) = w.2
  split_ifs with hstring
  · have hfix : Lexeme.unescape w.2.toList = w.2.toList := by
      rw [Word.Spelled, hstring] at hw
      exact hw
    have hbody : (w.spelling.drop 1).dropLast = w.2.toList := by
      rw [Word.spelling, if_pos hstring]
      exact List.dropLast_concat
    rw [hbody, hfix, String.ofList_toList]
  · rw [Word.spelling, if_neg hstring, String.ofList_toList]

namespace Token

theorem place_done (done : List Token) (p : Position) (xs : List Lexeme) :
    place done p xs = (place [] p xs).map (done.reverse ++ ·) := by
  induction xs generalizing done p with
  | nil => simp [place, Except.map]
  | cons x xs ih =>
    unfold place
    split
    · exact ih done _
    · exact ih done _
    · rfl
    · rw [ih (_ :: done), ih [_]]
      cases place [] (p.after x.text) xs with
      | error e => rfl
      | ok ts => simp [Except.map]

theorem place_mismatch {done : List Token} {p : Position} {x : Lexeme} {xs : List Lexeme}
    (hx : x.kind = .mismatch) :
    place done p (x :: xs) = .error ⟨some p.line, .unexpectedChar (x.text.headD ' ')⟩ := by
  unfold place
  rw [hx]

/-- A lexeme that is kept becomes the first token. -/
theorem place_cons {p : Position} {x : Lexeme} {xs : List Lexeme}
    (hx : x.kind ∉ [.blank, .comment, .mismatch]) :
    place [] p (x :: xs) =
      (place [] (p.after x.text) xs).map (⟨x.kind, x.value, p.line, p.column⟩ :: ·) := by
  simp only [List.mem_cons, List.not_mem_nil, or_false, not_or] at hx
  obtain ⟨hblank, hcomment, hmismatch⟩ := hx
  conv_lhs => unfold place
  split
  · exact absurd ‹_› hblank
  · exact absurd ‹_› hcomment
  · exact absurd ‹_› hmismatch
  · exact place_done [_] _ _

end Token

theorem Word.Spelled.kind_kept {w : Word} (h : w.Spelled) : w.1 ∉ [.blank, .comment, .mismatch] := by
  intro hk
  simp only [List.mem_cons, List.not_mem_nil, or_false] at hk
  rcases hk with hk | hk | hk <;> rw [Word.Spelled, hk] at h <;> exact h

/-- The tokens of the lexemes are the words. -/
theorem exists_place_lexemes {ms : List Mark} (hms : SpelledAll ms) (p : Position) :
    ∃ ts, Token.place [] p (ms.map Mark.lexeme) = .ok ts ∧ ts.map Token.word = wordsOf ms := by
  induction ms generalizing p with
  | nil => exact ⟨[], rfl, rfl⟩
  | cons m ms ih =>
    obtain ⟨hm, hms⟩ := spelledAll_cons.mp hms
    obtain ⟨ts, hts, hwords⟩ := ih hms (p.after m.lexeme.text)
    cases m with
    | gap => exact ⟨ts, hts, hwords⟩
    | word w =>
      refine ⟨⟨w.1, (Mark.word w).lexeme.value, p.line, p.column⟩ :: ts, ?_, ?_⟩
      · rw [List.map_cons, Token.place_cons (Word.Spelled.kind_kept hm), hts]
        rfl
      · rw [List.map_cons, hwords, wordsOf_word, Token.word, value_lexeme hm]

/-- A text whose marks can all be quoted is read as its words. -/
theorem exists_ofText_words {code : String} {ms : List Mark} (hcode : textOf ms = code.toList)
    (hms : SpelledAll ms) (hcuts : Cuts ms) (hq : ∀ m ∈ ms, m.Quotable) :
    ∃ ts, Token.ofText code = .ok ts ∧ ts.map Token.word = wordsOf ms := by
  rw [Token.ofText, ← hcode, all_textOf hcuts hq]
  exact exists_place_lexemes hms _

/-- The texts among words. -/
def textsOf (ws : List Word) : List String :=
  ws.filterMap fun w => if w.1 = .string then some w.2 else none

@[simp] theorem textsOf_append (ws ws' : List Word) :
    textsOf (ws ++ ws') = textsOf ws ++ textsOf ws' := List.filterMap_append

theorem textsOf_cons (w : Word) (ws : List Word) : textsOf (w :: ws) = textsOf [w] ++ textsOf ws :=
  textsOf_append [w] ws

theorem length_unescape_le (cs : List Char) : (Lexeme.unescape cs).length ≤ cs.length := by
  fun_induction Lexeme.unescape cs with
  | case1 cs ih =>
    rw [List.length_cons, List.length_cons, List.length_cons]
    omega
  | case2 c cs _ ih =>
    rw [List.length_cons, List.length_cons]
    omega
  | case3 => exact le_rfl

/-- A text that cannot be quoted ends too early or not at all. -/
theorem first_of_not_quotable {s : String} (hs : ¬Quotable s) (rest : List Char) :
    (Lexeme.first '"' (s.toList ++ '"' :: rest)).kind = .mismatch ∨
      (Lexeme.first '"' (s.toList ++ '"' :: rest)).kind = .string ∧
        (Lexeme.first '"' (s.toList ++ '"' :: rest)).value ≠ s := by
  set body := (s.toList ++ '"' :: rest).takeWhile (fun c => c ≠ '"' && c ≠ '\n') with hbody
  have hshort : body.length < s.toList.length := by
    have hle := (s.toList.takeWhile_prefix (fun c => c ≠ '"' && c ≠ '\n')).length_le
    have hne : (s.toList.takeWhile (fun c => c ≠ '"' && c ≠ '\n')).length ≠ s.toList.length := by
      intro hlen
      have hself := (s.toList.takeWhile_prefix (fun c => c ≠ '"' && c ≠ '\n')).eq_of_length hlen
      refine hs fun c hc => ?_
      rw [← hself] at hc
      exact List.mem_takeWhile_imp (p := fun c => c ≠ '"' && c ≠ '\n') hc
    rw [hbody, List.takeWhile_append, if_neg hne]
    omega
  show (Lexeme.quoted '"' _).kind = _ ∨ (Lexeme.quoted '"' _).kind = _ ∧
    (Lexeme.quoted '"' _).value ≠ s
  rw [Lexeme.quoted, ← hbody]
  split_ifs with hclose
  · right
    refine ⟨rfl, fun hvalue => ?_⟩
    have hchars : Lexeme.unescape body = s.toList := by
      rw [← hvalue]
      show _ = (String.ofList (Lexeme.unescape (body ++ ['"']).dropLast)).toList
      rw [List.dropLast_concat, String.toList_ofList]
    have hle := length_unescape_le body
    rw [hchars] at hle
    omega
  · exact .inl rfl

theorem exists_of_map_eq_ok {ε α β : Type} {x : Except ε α} {f : α → β} {b : β}
    (h : x.map f = .ok b) : ∃ a, x = .ok a ∧ f a = b := by
  cases x with
  | error e => cases h
  | ok a => exact ⟨a, rfl, Except.ok.inj h⟩

/-- Otherwise the texts that are read are not those that were printed. -/
theorem textsOf_ne {ms : List Mark} (hms : SpelledAll ms) (hcuts : Cuts ms)
    (hbad : ∃ m ∈ ms, ¬m.Quotable) {p : Position} {ts : List Token}
    (h : Token.place [] p (Lexeme.all (textOf ms)) = .ok ts) :
    textsOf (ts.map Token.word) ≠ textsOf (wordsOf ms) := by
  induction ms generalizing p ts with
  | nil =>
    obtain ⟨m, hm, -⟩ := hbad
    cases hm
  | cons m ms ih =>
    obtain ⟨hm, hrest⟩ := spelledAll_cons.mp hms
    by_cases hq : m.Quotable
    · -- this mark is read, so a later one cannot be quoted
      have hlater : ∃ m ∈ ms, ¬m.Quotable := by
        obtain ⟨m', hm', hnot⟩ := hbad
        rcases List.mem_cons.mp hm' with rfl | hm'
        · exact absurd hq hnot
        · exact ⟨m', hm', hnot⟩
      rw [(hcuts.1 hq).all_eq] at h
      cases m with
      | gap => exact ih hrest hcuts.2 hlater h
      | word w =>
        rw [Token.place_cons (Word.Spelled.kind_kept hm)] at h
        obtain ⟨us, hus, rfl⟩ := exists_of_map_eq_ok h
        have hne := ih hrest hcuts.2 hlater hus
        have hword : Token.word ⟨w.1, (Mark.word w).lexeme.value, p.line, p.column⟩ = w := by
          rw [Token.word, value_lexeme hm]
        show textsOf (Token.word ⟨w.1, _, _, _⟩ :: us.map Token.word) ≠ textsOf (w :: wordsOf ms)
        rw [hword, textsOf_cons w, textsOf_cons w (wordsOf ms)]
        exact fun heq => hne (List.append_cancel_left heq)
    · -- this mark is a text that ends too early
      obtain ⟨⟨k, s⟩, rfl, hk, hs⟩ : ∃ w : Word, m = .word w ∧ w.1 = .string ∧ ¬Quotable w.2 := by
        cases m with
        | gap => exact absurd trivial hq
        | word w => exact ⟨w, rfl, Classical.not_imp.mp hq⟩
      obtain rfl : k = .string := hk
      have htext : textOf (.word (.string, s) :: ms) = '"' :: (s.toList ++ '"' :: textOf ms) := by
        simp [Mark.chars, Word.spelling]
      rw [htext, Lexeme.all_cons] at h
      rcases first_of_not_quotable hs (textOf ms) with hkind | ⟨hkind, hvalue⟩
      · rw [Token.place_mismatch hkind] at h
        cases h
      · rw [Token.place_cons (by rw [hkind]; decide)] at h
        obtain ⟨us, -, rfl⟩ := exists_of_map_eq_ok h
        intro heq
        rw [hkind] at heq
        exact hvalue (List.cons.inj heq).1

end TraitCalculus
