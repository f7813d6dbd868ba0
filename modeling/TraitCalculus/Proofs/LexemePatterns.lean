import TraitCalculus.Proofs.LexedTokens

/-! What counts as a lexeme, and how a text is cut into them. At each place the lexer takes the
longest text of any kind, or a single character where no kind of text starts. So the lexemes cover
the text, the tokens have the places of their lexemes, and texts of all kinds that are written with
blanks between them are found again. -/
namespace TraitCalculus

namespace Lexeme

/-- Operators and punctuation. -/
def signs : List (String × Kind) :=
  [("->", .arrow), ("==", .eq), ("!=", .neq), ("<=", .leq), (">=", .geq), ("&&", .and), ("||", .or),
    ("(", .lparen), (")", .rparen), ("[", .lbracket), ("]", .rbracket), ("\x7b", .lbrace),
    ("\x7d", .rbrace), (".", .dot), (",", .comma), (":", .colon), (";", .semicolon), ("=", .assign),
    ("<", .lt), (">", .gt), ("+", .add), ("-", .sub), ("*", .mult), ("/", .div), ("%", .mod),
    ("!", .not), ("\\", .backslash), ("@", .atSign)]

/-- The texts of each kind, with what a token keeps of them: of a text in quotes what stands between
them, with its escapes read, and of the others all. -/
inductive Pattern : Kind → List Char → String → Prop
  | number {ds : List Char} (hne : ds ≠ []) (hds : ∀ d ∈ ds, Text.isDigit d) :
    Pattern .number ds (String.ofList ds)
  | decimal {ds es : List Char} (hne : ds ≠ []) (hds : ∀ d ∈ ds, Text.isDigit d) (hne' : es ≠ [])
      (hes : ∀ e ∈ es, Text.isDigit e) :
    Pattern .number (ds ++ '.' :: es) (String.ofList (ds ++ '.' :: es))
  | string {q : Char} {body : List Char} (hq : q = '"' ∨ q = '\x27')
      (hbody : ∀ c ∈ body, c ≠ q ∧ c ≠ '\n') :
    Pattern .string (q :: body ++ [q]) (String.ofList (unescape body))
  | word {c : Char} {cs : List Char} (hc : isWordStart c) (hcs : ∀ d ∈ cs, isWordChar d) :
    Pattern (wordKind (c :: cs)) (c :: cs) (String.ofList (c :: cs))
  | sign {s : String} {k : Kind} (h : (s, k) ∈ signs) : Pattern k s.toList s
  | comment {cs : List Char} (hcs : ∀ c ∈ cs, c ≠ '\n') :
    Pattern .comment ('/' :: '/' :: cs) (String.ofList ('/' :: '/' :: cs))
  | blank {cs : List Char} (hne : cs ≠ []) (hcs : ∀ c ∈ cs, isBlankChar c) :
    Pattern .blank cs (String.ofList cs)

/-- Characters that start no number, text, word or blank. -/
def isPlain (c : Char) : Bool :=
  !Text.isDigit c && c ≠ '"' && c ≠ '\x27' && !isWordStart c && !isBlankChar c

/-- The kind of an operator, by its characters. -/
def signKind? : List Char → Option Kind
  | [c] => if isPlain c then markKind? c else none
  | [c, d] => if isPlain c ∧ c ≠ '/' then pairKind? c d else none
  | _ => none

/-- Each operator has one or two characters, and is found by them. -/
theorem sign_cases {s : String} {k : Kind} (h : (s, k) ∈ signs) :
    (∃ c, s.toList = [c] ∧ isPlain c ∧ markKind? c = some k) ∨
      ∃ c d, s.toList = [c, d] ∧ (isPlain c ∧ c ≠ '/') ∧ pairKind? c d = some k := by
  have hall : ∀ p ∈ signs, signKind? p.1.toList = some p.2 := by decide
  have hs := hall _ h
  dsimp only at hs
  unfold signKind? at hs
  split at hs
  · split_ifs at hs with hc
    exact .inl ⟨_, ‹_›, hc, hs⟩
  · split_ifs at hs with hc
    exact .inr ⟨_, _, ‹_›, hc, hs⟩
  · cases hs

theorem pattern_of_markKind? {c : Char} {k : Kind} (h : markKind? c = some k) :
    Pattern k [c] (String.ofList [c]) := by
  have hall : ∀ p ∈ marks, (String.ofList [p.1], p.2) ∈ signs := by decide
  obtain ⟨l₁, l₂, hm, -⟩ := List.lookup_eq_some_iff.mp h
  have hsign := Pattern.sign (hall (c, k) (by simp [hm]))
  rwa [String.toList_ofList] at hsign

theorem pattern_of_pairKind? {c d : Char} {k : Kind} (h : pairKind? c d = some k) :
    Pattern k [c, d] (String.ofList [c, d]) := by
  have hmem : (String.ofList [c, d], k) ∈ signs := by
    unfold pairKind? at h
    split_ifs at h with h₁ h₂ h₃ h₄ h₅ h₆ h₇
    all_goals
      cases h
      simp_all only []
      decide
  have hsign := Pattern.sign hmem
  rwa [String.toList_ofList] at hsign

namespace Pattern

variable {k : Kind} {w : List Char} {v : String}

theorem kind_ne (h : Pattern k w v) : k ≠ .mismatch := by
  cases h with
  | word hc hcs => exact wordKind_ne (by decide) _
  | sign h =>
    have hall : ∀ p ∈ signs, p.2 ≠ .mismatch := by decide
    exact hall _ h
  | _ => decide

theorem value_eq (h : Pattern k w v) : value ⟨k, w⟩ = v := by
  cases h with
  | string hq hbody => simp [value]
  | word hc hcs => exact if_neg (wordKind_ne (by decide) _)
  | @sign s _ h =>
    have hall : ∀ p ∈ signs, p.2 ≠ .string := by decide
    exact (if_neg (hall _ h)).trans String.ofList_toList
  | _ => rfl

end Pattern

theorem first_of_isPlain {c : Char} (hc : isPlain c) {cs : List Char}
    (hslash : ¬(c = '/' ∧ cs.head? = some '/')) : first c cs = symbol c cs := by
  simp only [isPlain, Bool.and_eq_true, Bool.not_eq_true', decide_eq_true_eq] at hc
  obtain ⟨⟨⟨⟨hdigit, hdouble⟩, hsingle⟩, hword⟩, hblank⟩ := hc
  rw [first, hdigit, if_neg Bool.false_ne_true, if_neg (not_or.mpr ⟨hdouble, hsingle⟩),
    if_neg hslash, hword, if_neg Bool.false_ne_true, hblank, if_neg Bool.false_ne_true]

theorem mem_blanks {c : Char} (hc : isBlankChar c) : c ∈ [' ', '\t', '\r', '\n'] := by
  simpa [isBlankChar, or_assoc] using hc

theorem first_of_isBlankChar {c : Char} (hc : isBlankChar c) (cs : List Char) :
    first c cs = ⟨.blank, c :: cs.takeWhile isBlankChar⟩ := by
  have hmem := mem_blanks hc
  simp only [List.mem_cons, List.not_mem_nil, or_false] at hmem
  rcases hmem with rfl | rfl | rfl | rfl <;> rfl

theorem fraction_prefix (cs : List Char) : fraction cs <+: cs := by
  fun_cases fraction cs with
  | case1 d cs hd =>
    rw [List.prefix_cons_inj, List.prefix_cons_inj]
    exact List.takeWhile_prefix _
  | case2 => exact List.nil_prefix
  | case3 => exact List.nil_prefix

/-- The lexeme stands at the front of the text, and is of its kind or a single character. -/
def FitsAt (x : Lexeme) (c : Char) (cs : List Char) : Prop :=
  x.text <+: c :: cs ∧
    (Pattern x.kind x.text x.value ∨ x.kind = .mismatch ∧ x.text = [c])

theorem fitsAt_of_pattern {x : Lexeme} {v : String} {c : Char} {cs : List Char}
    (hx : x.text <+: c :: cs) (h : Pattern x.kind x.text v) : x.FitsAt c cs :=
  ⟨hx, .inl (h.value_eq ▸ h)⟩

theorem fitsAt_number {c : Char} (hc : Text.isDigit c) (cs : List Char) :
    (number c cs).FitsAt c cs := by
  have hds : ∀ d ∈ c :: cs.takeWhile Text.isDigit, Text.isDigit d :=
    List.forall_mem_cons.mpr ⟨hc, fun d => List.mem_takeWhile_imp⟩
  have hprefix : (number c cs).text <+: c :: cs := by
    obtain ⟨rest, hrest⟩ := fraction_prefix (cs.dropWhile Text.isDigit)
    refine ⟨rest, ?_⟩
    rw [number, List.append_assoc, hrest, List.cons_append, List.takeWhile_append_dropWhile]
  refine fitsAt_of_pattern (v := String.ofList (number c cs).text) hprefix ?_
  unfold number
  dsimp only
  fun_cases fraction (cs.dropWhile Text.isDigit) with
  | case1 d es hd =>
    exact .decimal (List.cons_ne_nil _ _) hds (List.cons_ne_nil _ _)
      (List.forall_mem_cons.mpr ⟨hd, fun d => List.mem_takeWhile_imp⟩)
  | case2 | case3 =>
    rw [List.append_nil]
    exact .number (List.cons_ne_nil _ _) hds

theorem fitsAt_quoted {q : Char} (hq : q = '"' ∨ q = '\x27') (cs : List Char) :
    (quoted q cs).FitsAt q cs := by
  set body := cs.takeWhile fun c => c ≠ q && c ≠ '\n' with hbody
  have hquoted : quoted q cs = if (cs.drop body.length).head? = some q then
      ⟨.string, q :: body ++ [q]⟩ else ⟨.mismatch, [q]⟩ := rfl
  rw [hquoted]
  split_ifs with hclose
  · obtain ⟨rest, hrest⟩ := List.head?_eq_some_iff.mp hclose
    have hcs : body ++ q :: rest = cs := by
      rw [← hrest]
      exact List.prefix_iff_eq_append.mp (List.takeWhile_prefix _)
    refine fitsAt_of_pattern ⟨rest, ?_⟩ (.string hq ?_)
    · rw [← hcs]
      simp
    · intro c hc
      simpa using List.mem_takeWhile_imp hc
  · exact ⟨⟨cs, rfl⟩, .inr ⟨rfl, rfl⟩⟩

theorem fitsAt_symbol (c : Char) (cs : List Char) : (symbol c cs).FitsAt c cs := by
  have hmark : (⟨(markKind? c).getD .mismatch, [c]⟩ : Lexeme).FitsAt c cs := by
    cases hm : markKind? c with
    | none => exact ⟨⟨cs, rfl⟩, .inr ⟨rfl, rfl⟩⟩
    | some k => exact fitsAt_of_pattern ⟨cs, rfl⟩ (pattern_of_markKind? hm)
  unfold symbol
  cases cs with
  | nil => exact hmark
  | cons d cs =>
    cases hp : pairKind? c d with
    | none => simpa [hp] using hmark
    | some k =>
      have hpair : (⟨k, [c, d]⟩ : Lexeme).FitsAt c (d :: cs) :=
        fitsAt_of_pattern ⟨cs, rfl⟩ (pattern_of_pairKind? hp)
      simpa [hp] using hpair

/-- What the lexer finds at the front of a text. -/
theorem fitsAt_first (c : Char) (cs : List Char) : (first c cs).FitsAt c cs := by
  have htake (p : Char → Bool) : c :: cs.takeWhile p <+: c :: cs :=
    List.prefix_cons_inj c |>.mpr (List.takeWhile_prefix p)
  unfold first
  split_ifs with hdigit hquote hslash hword hblank
  · exact fitsAt_number hdigit cs
  · exact fitsAt_quoted hquote cs
  · obtain ⟨rfl, hhead⟩ := hslash
    obtain ⟨cs, rfl⟩ := List.head?_eq_some_iff.mp hhead
    exact fitsAt_of_pattern (htake _) (.comment fun c hc => by simpa using List.mem_takeWhile_imp hc)
  · exact fitsAt_of_pattern (htake _) (.word hword fun d => List.mem_takeWhile_imp)
  · exact fitsAt_of_pattern (htake _) (.blank (List.cons_ne_nil _ _)
      (List.forall_mem_cons.mpr ⟨hblank, fun d => List.mem_takeWhile_imp⟩))
  · exact fitsAt_symbol c cs

/-- The text is found at the front of every text that starts with it, alone or as the start of a
longer lexeme. Alone if it is followed by a blank or by nothing, unless it is a comment or blank. -/
def FoundBefore (k : Kind) (w rest : List Char) : Prop :=
  ∃ c cs, w = c :: cs ∧ (first c (cs ++ rest)).kind ≠ .mismatch ∧
    w <+: (first c (cs ++ rest)).text ∧
    (k ∉ [.blank, .comment] → (∀ d ∈ rest.head?, isBlankChar d) → first c (cs ++ rest) = ⟨k, w⟩)

theorem cons_prefix_takeWhile {p : Char → Bool} {cs : List Char} (c : Char) (hcs : ∀ d ∈ cs, p d)
    (rest : List Char) : c :: cs <+: c :: (cs ++ rest).takeWhile p := by
  rw [List.prefix_cons_inj, List.takeWhile_append_of_pos hcs]
  exact List.prefix_append _ _

theorem not_of_blank {p : Char → Bool} (hp : [' ', '\t', '\r', '\n'].all (!p ·)) {rest : List Char}
    (hrest : ∀ d ∈ rest.head?, isBlankChar d) : ∀ d ∈ rest.head?, p d = false :=
  fun d hd => (Bool.not_eq_true' _).mp (List.all_eq_true.mp hp d (mem_blanks (hrest d hd)))

theorem fraction_of_blank {rest : List Char} (hrest : ∀ d ∈ rest.head?, isBlankChar d) :
    fraction rest = [] := by
  fun_cases fraction rest with
  | case1 d cs hd => exact absurd (hrest '.' rfl) (by decide)
  | case2 => rfl
  | case3 => rfl

theorem found_number {ds : List Char} (hne : ds ≠ []) (hds : ∀ d ∈ ds, Text.isDigit d)
    (rest : List Char) : FoundBefore .number ds rest := by
  obtain ⟨c, cs, rfl⟩ := List.exists_cons_of_ne_nil hne
  obtain ⟨hc, hcs⟩ := List.forall_mem_cons.mp hds
  have hfirst : first c (cs ++ rest) = number c (cs ++ rest) := if_pos hc
  refine ⟨c, cs, rfl, ?_, ?_, fun _ hrest => ?_⟩
  · rw [hfirst]
    simp [number]
  · rw [hfirst]
    exact (cons_prefix_takeWhile c hcs rest).trans (List.prefix_append _ _)
  · exact first_digits hc hcs (not_of_blank (by decide) hrest) (fraction_of_blank hrest)

theorem found_decimal {ds es : List Char} (hne : ds ≠ []) (hds : ∀ d ∈ ds, Text.isDigit d)
    (hne' : es ≠ []) (hes : ∀ e ∈ es, Text.isDigit e) (rest : List Char) :
    FoundBefore .number (ds ++ '.' :: es) rest := by
  obtain ⟨c, cs, rfl⟩ := List.exists_cons_of_ne_nil hne
  obtain ⟨hc, hcs⟩ := List.forall_mem_cons.mp hds
  obtain ⟨e, es, rfl⟩ := List.exists_cons_of_ne_nil hne'
  obtain ⟨he, hes⟩ := List.forall_mem_cons.mp hes
  have hpoint : ∀ d ∈ ('.' :: e :: (es ++ rest)).head?, Text.isDigit d = false :=
    fun d hd => Option.some.inj hd ▸ (by decide)
  have hfirst : first c (cs ++ '.' :: e :: es ++ rest) =
      ⟨.number, c :: cs ++ '.' :: e :: (es ++ rest).takeWhile Text.isDigit⟩ := by
    rw [first, if_pos hc, number, List.append_assoc, List.cons_append, List.cons_append,
      List.cons_append, takeWhile_of_stop hcs hpoint, dropWhile_of_stop hcs hpoint, fraction, if_pos he]
    rfl
  refine ⟨c, cs ++ '.' :: e :: es, rfl, ?_, ?_, fun _ hrest => ?_⟩
  · rw [hfirst]
    simp
  · rw [hfirst, List.prefix_append_right_inj, List.prefix_cons_inj]
    exact cons_prefix_takeWhile e hes rest
  · rw [hfirst, takeWhile_of_stop hes (not_of_blank (by decide) hrest)]

theorem found_string {q : Char} {body : List Char} (hq : q = '"' ∨ q = '\x27')
    (hbody : ∀ c ∈ body, c ≠ q ∧ c ≠ '\n') (rest : List Char) :
    FoundBefore .string (q :: body ++ [q]) rest := by
  have htake : (body ++ q :: rest).takeWhile (fun c => c ≠ q && c ≠ '\n') = body :=
    takeWhile_of_stop (by simpa using hbody) fun c hc => Option.some.inj hc ▸ (by simp)
  have hfirst : first q (body ++ [q] ++ rest) = ⟨.string, q :: body ++ [q]⟩ := by
    have hquoted : first q (body ++ [q] ++ rest) = quoted q (body ++ q :: rest) := by
      rw [List.append_assoc, List.singleton_append]
      rcases hq with rfl | rfl <;> rfl
    rw [hquoted, quoted, htake, List.drop_left]
    exact if_pos rfl
  exact ⟨q, body ++ [q], rfl, by rw [hfirst]; simp, by rw [hfirst], fun _ _ => hfirst⟩

theorem symbol_of_pair {c d : Char} {k : Kind} (h : pairKind? c d = some k) (cs : List Char) :
    symbol c (d :: cs) = ⟨k, [c, d]⟩ := by
  simp [symbol, h]

theorem symbol_of_mark {c : Char} {k : Kind} (hk : markKind? c = some k) {cs : List Char}
    (h : cs.head?.bind (pairKind? c) = none) : symbol c cs = ⟨k, [c]⟩ := by
  simp [symbol, h, hk]

theorem pairKind?_blank (c : Char) {d : Char} (hd : isBlankChar d) : pairKind? c d = none := by
  have hmem := mem_blanks hd
  simp only [List.mem_cons, List.not_mem_nil, or_false] at hmem
  rcases hmem with rfl | rfl | rfl | rfl <;> simp [pairKind?]

/-- An operator of one character may be the start of a longer one, or of a comment. -/
theorem found_mark {c : Char} {k : Kind} (hc : isPlain c) (hk : markKind? c = some k)
    (rest : List Char) : FoundBefore k [c] rest := by
  refine ⟨c, [], rfl, ?_⟩
  rw [List.nil_append]
  by_cases hslash : c = '/' ∧ rest.head? = some '/'
  · obtain ⟨rfl, hhead⟩ := hslash
    obtain ⟨rest, rfl⟩ := List.head?_eq_some_iff.mp hhead
    have hfirst : first '/' ('/' :: rest) =
        ⟨.comment, '/' :: ('/' :: rest).takeWhile (· ≠ '\n')⟩ := rfl
    rw [hfirst]
    exact ⟨by simp, ⟨_, rfl⟩, fun _ hrest => absurd (hrest '/' rfl) (by decide)⟩
  rw [first_of_isPlain hc hslash]
  cases hpair : rest.head?.bind (pairKind? c) with
  | none =>
    rw [symbol_of_mark hk hpair]
    exact ⟨(pattern_of_markKind? hk).kind_ne, List.prefix_rfl, fun _ _ => rfl⟩
  | some k' =>
    obtain ⟨d, hd, hd'⟩ := Option.bind_eq_some_iff.mp hpair
    obtain ⟨rest, rfl⟩ := List.head?_eq_some_iff.mp hd
    rw [symbol_of_pair hd']
    refine ⟨(pattern_of_pairKind? hd').kind_ne, ⟨[d], rfl⟩, fun _ hrest => ?_⟩
    rw [pairKind?_blank c (hrest d rfl)] at hd'
    cases hd'

theorem found_pair {c d : Char} {k : Kind} (hc : isPlain c) (hslash : c ≠ '/')
    (hk : pairKind? c d = some k) (rest : List Char) : FoundBefore k [c, d] rest := by
  have hfirst : first c ([d] ++ rest) = ⟨k, [c, d]⟩ := by
    rw [first_of_isPlain hc fun h => hslash h.1]
    exact symbol_of_pair hk rest
  have hkind := (pattern_of_pairKind? hk).kind_ne
  exact ⟨c, [d], rfl, by rwa [hfirst], by rw [hfirst], fun _ _ => hfirst⟩

/-- Texts of all kinds are found. -/
theorem Pattern.found {k : Kind} {w : List Char} {v : String} (h : Pattern k w v)
    (rest : List Char) : FoundBefore k w rest := by
  cases h with
  | number hne hds => exact found_number hne hds rest
  | decimal hne hds hne' hes => exact found_decimal hne hds hne' hes rest
  | string hq hbody => exact found_string hq hbody rest
  | @word c cs hc hcs =>
    have hfirst := first_of_isWordStart hc (cs ++ rest)
    refine ⟨c, cs, rfl, ?_, ?_, fun _ hrest => ?_⟩
    · rw [hfirst]
      exact wordKind_ne (by decide) _
    · rw [hfirst]
      exact cons_prefix_takeWhile c hcs rest
    · exact first_letters hc hcs (not_of_blank (by decide) hrest)
  | sign h =>
    obtain ⟨c, hs, hc, hk⟩ | ⟨c, d, hs, ⟨hc, hslash⟩, hk⟩ := sign_cases h
    · exact hs ▸ found_mark hc hk rest
    · exact hs ▸ found_pair hc hslash hk rest
  | @comment cs hcs =>
    have hcs : ∀ c ∈ '/' :: cs, decide (c ≠ '\n') = true := by simpa using hcs
    refine ⟨'/', '/' :: cs, rfl, ?_, ?_, fun hk => absurd hk (by decide)⟩
    · exact (by decide : Kind.comment ≠ .mismatch)
    · exact cons_prefix_takeWhile '/' hcs rest
  | blank hne hcs =>
    obtain ⟨c, cs, rfl⟩ := List.exists_cons_of_ne_nil hne
    obtain ⟨hc, hcs⟩ := List.forall_mem_cons.mp hcs
    have hfirst := first_of_isBlankChar hc (cs ++ rest)
    refine ⟨c, cs, rfl, ?_, ?_, fun hk => absurd hk (by decide)⟩
    · rw [hfirst]
      simp
    · rw [hfirst]
      exact cons_prefix_takeWhile c hcs rest

/-- The longest text of any kind that stands at the front, with `rest` behind it. -/
def Longest (x : Lexeme) (rest : List Char) : Prop :=
  Pattern x.kind x.text x.value ∧
    ∀ k w v, Pattern k w v → w <+: x.text ++ rest → w.length ≤ x.text.length

/-- A single character, where no text of any kind starts. -/
def Stray (x : Lexeme) (rest : List Char) : Prop :=
  ∃ c, x.text = [c] ∧ ∀ k w v, Pattern k w v → ¬w <+: c :: rest

theorem longest_or_stray {c : Char} {cs rest : List Char} (h : (first c cs).text ++ rest = c :: cs) :
    (first c cs).kind ≠ .mismatch ∧ (first c cs).Longest rest ∨
      (first c cs).kind = .mismatch ∧ (first c cs).Stray rest := by
  -- a text of any kind at the front is found there, alone or as the start of a longer one
  have hfound : ∀ k w v, Pattern k w v → w <+: c :: cs →
      (first c cs).kind ≠ .mismatch ∧ w.length ≤ (first c cs).text.length := by
    rintro k w v hw ⟨t, ht⟩
    obtain ⟨c', cs', rfl, hkind, hprefix, -⟩ := hw.found t
    obtain ⟨rfl, rfl⟩ := List.cons.inj ht
    exact ⟨hkind, hprefix.length_le⟩
  obtain ⟨-, hpattern | ⟨hkind, htext⟩⟩ := fitsAt_first c cs
  · refine .inl ⟨hpattern.kind_ne, hpattern, fun k w v hw hprefix => ?_⟩
    exact (hfound k w v hw (h ▸ hprefix)).2
  · refine .inr ⟨hkind, c, htext, fun k w v hw hprefix => ?_⟩
    rw [htext] at h
    exact (hfound k w v hw (h ▸ hprefix)).1 hkind

/-- The first lexeme of a text, and what is left behind it. -/
theorem exists_all_cons (c : Char) (cs : List Char) : ∃ rest, (first c cs).text ++ rest = c :: cs ∧
    (first c cs).text ≠ [] ∧ all (c :: cs) = first c cs :: all rest := by
  obtain ⟨⟨rest, hrest⟩, hfits⟩ := fitsAt_first c cs
  have hne : (first c cs).text ≠ [] := by
    obtain hpattern | ⟨-, htext⟩ := hfits
    · obtain ⟨_, _, hcons, -⟩ := hpattern.found []
      exact hcons ▸ List.cons_ne_nil _ _
    · exact htext ▸ List.cons_ne_nil _ _
  refine ⟨rest, hrest, hne, ?_⟩
  obtain ⟨d, ds, hcons⟩ := List.exists_cons_of_ne_nil hne
  rw [hcons, List.cons_append] at hrest
  obtain ⟨rfl, rfl⟩ := List.cons.inj hrest
  rw [all_cons, hcons, List.length_cons, Nat.add_sub_cancel, List.drop_left]

/-- The lexemes cover the text, and each is what stands at the front of its place. -/
theorem all_tiles (cs : List Char) : ((all cs).flatMap (·.text) = cs ∧ ∀ x ∈ all cs, x.text ≠ []) ∧
    ∀ pre x post, all cs = pre ++ x :: post →
      x.kind ≠ .mismatch ∧ x.Longest (post.flatMap (·.text)) ∨
        x.kind = .mismatch ∧ x.Stray (post.flatMap (·.text)) := by
  induction hn : cs.length using Nat.strong_induction_on generalizing cs with
  | _ n ih =>
    subst hn
    cases cs with
    | nil => exact ⟨⟨rfl, nofun⟩, fun pre x post h => absurd h (by simp [all, cut])⟩
    | cons c cs =>
      -- what is left behind the first lexeme is shorter, as no lexeme is empty
      obtain ⟨rest, hrest, hne, hall⟩ := exists_all_cons c cs
      have hlen : rest.length < (c :: cs).length := by
        have hpos := List.length_pos_of_ne_nil hne
        have hsum := congrArg List.length hrest
        rw [List.length_append] at hsum
        omega
      obtain ⟨⟨hcover, hnonempty⟩, hsplit⟩ := ih _ hlen rest rfl
      rw [hall]
      refine ⟨⟨?_, List.forall_mem_cons.mpr ⟨hne, hnonempty⟩⟩, ?_⟩
      · rw [List.flatMap_cons, hcover, hrest]
      · intro pre x post h
        cases pre with
        | nil =>
          obtain ⟨rfl, rfl⟩ := List.cons.inj h
          exact longest_or_stray (hcover.symm ▸ hrest)
        | cons y pre => exact hsplit pre x post (List.cons.inj h).2

end Lexeme

/-- The place behind a text: lines and columns are counted from one. -/
theorem Position.after_start (cs : List Char) : Position.after {} cs =
    ⟨1 + cs.count '\n', 1 + (cs.reverse.takeWhile (· ≠ '\n')).length⟩ := by
  induction cs using List.reverseRecOn with
  | nil => rfl
  | append_singleton cs c ih =>
    have hstep : Position.after {} (cs ++ [c]) = (Position.after {} cs).step c := List.foldl_append
    rw [hstep, ih, step]
    split_ifs with hc
    · simp [hc, Nat.add_assoc]
    · simp [hc, Nat.add_assoc]

namespace Token

/-- The token of a lexeme that has the text `before` in front of it. -/
def behind (before : List Char) (x : Lexeme) : Token where
  kind := x.kind
  text := x.value
  line := 1 + before.count '\n'
  column := 1 + (before.reverse.takeWhile (· ≠ '\n')).length

/-- The tokens of all lexemes that are neither blank nor comment. -/
def along (before : List Char) : List Lexeme → List Token
  | [] => []
  | x :: xs =>
    if x.kind ∈ [.blank, .comment] then along (before ++ x.text) xs
    else behind before x :: along (before ++ x.text) xs

theorem place_skip {p : Position} {x : Lexeme} (hx : x.kind ∈ [.blank, .comment])
    (xs : List Lexeme) : place [] p (x :: xs) = place [] (p.after x.text) xs := by
  simp only [List.mem_cons, List.not_mem_nil, or_false] at hx
  conv_lhs => unfold place
  rcases hx with hx | hx <;> rw [hx]

theorem after_append (before cs : List Char) :
    (Position.after {} before).after cs = Position.after {} (before ++ cs) :=
  List.foldl_append.symm

/-- Lexemes without stray characters become tokens, and the others are placed behind them. -/
theorem place_append {pre : List Lexeme} (hpre : ∀ x ∈ pre, x.kind ≠ .mismatch) (xs : List Lexeme)
    (before : List Char) : place [] (Position.after {} before) (pre ++ xs) =
      (place [] (Position.after {} (before ++ pre.flatMap (·.text))) xs).map
        (along before pre ++ ·) := by
  induction pre generalizing before with
  | nil =>
    rw [List.flatMap_nil, List.append_nil, List.nil_append, along]
    cases place [] (Position.after {} before) xs <;> rfl
  | cons x pre ih =>
    obtain ⟨hx, hpre⟩ := List.forall_mem_cons.mp hpre
    rw [List.cons_append, List.flatMap_cons, ← List.append_assoc, along]
    split_ifs with hskip
    · rw [place_skip hskip, after_append, ih hpre]
    · have hkept : x.kind ∉ [.blank, .comment, .mismatch] := by
        simp only [List.mem_cons, List.not_mem_nil, or_false] at hskip ⊢
        tauto
      rw [place_cons hkept, after_append, ih hpre, Position.after_start before]
      cases place [] (Position.after {} (before ++ x.text ++ pre.flatMap (·.text))) xs <;> rfl

/-- The tokens of lexemes without stray characters. -/
theorem place_along {xs : List Lexeme} (h : ∀ x ∈ xs, x.kind ≠ .mismatch) :
    place [] {} xs = .ok (along [] xs) := by
  have hplace := place_append h [] []
  rw [List.append_nil] at hplace
  exact hplace.trans (congrArg Except.ok (List.append_nil _))

/-- The lexer cuts a text into lexemes that cover it. Each is the longest text of any kind at its
place, or a single character where no text of any kind starts. If there is such a character, the
text is refused at the line of the first one. Otherwise the tokens are the lexemes but blanks and
comments, each with its value, line and column. -/
theorem ofText_tiles {code : String} {xs : List Lexeme} (hxs : Lexeme.all code.toList = xs) :
    (xs.flatMap (·.text) = code.toList ∧ ∀ x ∈ xs, x.text ≠ []) ∧
    (∀ pre x post, xs = pre ++ x :: post →
      x.kind ≠ .mismatch ∧ x.Longest (post.flatMap (·.text)) ∨
        x.kind = .mismatch ∧ x.Stray (post.flatMap (·.text))) ∧
    ((∃ e, ofText code = .error e) ↔ ∃ x ∈ xs, x.kind = .mismatch) ∧
    (∀ pre x post, xs = pre ++ x :: post → (∀ y ∈ pre, y.kind ≠ .mismatch) →
      x.kind = .mismatch → ∃ c, x.text = [c] ∧ ofText code =
        .error ⟨some (1 + (pre.flatMap (·.text)).count '\n'), .unexpectedChar c⟩) ∧
    ((∀ x ∈ xs, x.kind ≠ .mismatch) → ofText code = .ok (along [] xs)) := by
  obtain ⟨hcover, hsplit⟩ := Lexeme.all_tiles code.toList
  rw [hxs] at hcover hsplit
  have hcode : ofText code = place [] {} xs := congrArg (place [] {}) hxs
  have herror : ∀ pre x post, xs = pre ++ x :: post → (∀ y ∈ pre, y.kind ≠ .mismatch) →
      x.kind = .mismatch → ∃ c, x.text = [c] ∧ ofText code =
        .error ⟨some (1 + (pre.flatMap (·.text)).count '\n'), .unexpectedChar c⟩ := by
    intro pre x post heq hpre hx
    obtain ⟨hne, -⟩ | ⟨-, c, hc, -⟩ := hsplit pre x post heq
    · exact absurd hx hne
    · have hplace := place_append hpre (x :: post) []
      rw [← heq, place_mismatch hx, hc, List.nil_append,
        Position.after_start (pre.flatMap (·.text))] at hplace
      exact ⟨c, hc, hcode.trans hplace⟩
  have hok : (∀ x ∈ xs, x.kind ≠ .mismatch) → ofText code = .ok (along [] xs) :=
    fun h => hcode.trans (place_along h)
  refine ⟨hcover, hsplit, ⟨?_, ?_⟩, herror, hok⟩
  · rintro ⟨e, he⟩
    by_contra hnone
    rw [hok fun x hx hk => hnone ⟨x, hx, hk⟩] at he
    cases he
  · rintro ⟨x, hx, hk⟩
    have hsome : (xs.find? (·.kind = .mismatch)).isSome :=
      List.find?_isSome.mpr ⟨x, hx, decide_eq_true hk⟩
    obtain ⟨y, hy⟩ := Option.isSome_iff_exists.mp hsome
    obtain ⟨hky, pre, post, heq, hpre⟩ := List.find?_eq_some_iff_append.mp hy
    obtain ⟨c, -, he⟩ := herror pre y post heq (fun z hz => by simpa using hpre z hz)
      (of_decide_eq_true hky)
    exact ⟨_, he⟩

/-- Two lines with a comment and an escape, and a dollar sign. -/
def strayText : String := "s = 'a\\nb'; // $\n\t1.5.x $ y"

theorem ofText_tiles_stray : ofText strayText = .error ⟨some 2, .unexpectedChar '$'⟩ := by
  set xs := Lexeme.all strayText.toList with hdef
  obtain ⟨heq, hpre, hcount⟩ : xs = xs.take 13 ++ ⟨.mismatch, ['$']⟩ :: xs.drop 14 ∧
      (∀ y ∈ xs.take 13, y.kind ≠ .mismatch) ∧ ((xs.take 13).flatMap (·.text)).count '\n' = 1 := by
    decide +kernel
  obtain ⟨c, hc, he⟩ := (ofText_tiles hdef.symm).2.2.2.1 _ _ _ heq hpre rfl
  obtain rfl : '$' = c := (List.cons.inj hc).1
  rwa [hcount] at he

end Token

namespace Lexeme

/-- Blanks between lexemes, if there are any. -/
def gap (cs : List Char) : List Lexeme := if cs = [] then [] else [⟨.blank, cs⟩]

theorem kind_of_mem_gap {cs : List Char} {x : Lexeme} (hx : x ∈ gap cs) : x.kind = .blank := by
  unfold gap at hx
  split_ifs at hx with hcs
  · cases hx
  · rw [List.mem_singleton.mp hx]

theorem filter_gap (cs : List Char) : (gap cs).filter (·.kind ∉ [.blank, .comment]) = [] := by
  rw [List.filter_eq_nil_iff]
  intro x hx
  simp [kind_of_mem_gap hx]

/-- Blanks are cut off before a character that is none. -/
theorem all_gap {cs rest : List Char} (hcs : ∀ c ∈ cs, isBlankChar c)
    (hrest : ∀ d ∈ rest.head?, isBlankChar d = false) : all (cs ++ rest) = gap cs ++ all rest := by
  cases cs with
  | nil => rfl
  | cons c cs =>
    obtain ⟨hc, hcs⟩ := List.forall_mem_cons.mp hcs
    refine all_of_first ?_
    rw [first_of_isBlankChar hc, takeWhile_of_stop hcs hrest]

/-- Only blanks start with a blank. -/
theorem Pattern.not_blank {k : Kind} {w : List Char} {v : String} (h : Pattern k w v)
    (hk : k ∉ [.blank, .comment]) : ∃ c cs, w = c :: cs ∧ isBlankChar c = false := by
  obtain ⟨c, cs, rfl, -, -, hfirst⟩ := h.found []
  refine ⟨c, cs, rfl, Bool.eq_false_iff.mpr fun hc => ?_⟩
  have hkind := congrArg Lexeme.kind (hfirst hk nofun)
  rw [first_of_isBlankChar hc] at hkind
  obtain rfl : .blank = k := hkind
  exact hk List.mem_cons_self

section Spread

variable {items : List (Lexeme × List Char)}

/-- Lexemes with blanks behind each are found again. -/
theorem all_spread (hitems : ∀ i ∈ items, Pattern i.1.kind i.1.text i.1.value ∧
      i.1.kind ∉ [.blank, .comment]) (hblank : ∀ i ∈ items, ∀ c ∈ i.2, isBlankChar c)
    (hgaps : ∀ i ∈ items.dropLast, i.2 ≠ []) :
    (∀ d ∈ (items.flatMap fun i => i.1.text ++ i.2).head?, isBlankChar d = false) ∧
      all (items.flatMap fun i => i.1.text ++ i.2) = items.flatMap fun i => i.1 :: gap i.2 := by
  induction items with
  | nil => exact ⟨nofun, rfl⟩
  | cons i items ih =>
    obtain ⟨x, cs⟩ := i
    obtain ⟨⟨hx, hkind⟩, hitems⟩ := List.forall_mem_cons.mp hitems
    obtain ⟨hcs, hblank⟩ := List.forall_mem_cons.mp hblank
    have hgaps' : ∀ i ∈ items.dropLast, i.2 ≠ [] := by
      intro i hi
      refine hgaps i ?_
      cases items with
      | nil => cases hi
      | cons j items => exact List.mem_cons_of_mem _ hi
    obtain ⟨hhead, hall⟩ := ih hitems hblank hgaps'
    -- behind the lexeme there is a blank, or it is the last one and there is nothing
    have hstop : ∀ d ∈ (cs ++ items.flatMap fun i => i.1.text ++ i.2).head?, isBlankChar d := by
      intro d hd
      cases cs with
      | nil =>
        cases items with
        | nil => cases hd
        | cons j items => exact absurd rfl (hgaps (x, []) List.mem_cons_self)
      | cons c cs => exact hcs d (Option.some.inj hd ▸ List.mem_cons_self)
    obtain ⟨c, ds, htext, -, -, hfirst⟩ := hx.found (cs ++ items.flatMap fun i => i.1.text ++ i.2)
    obtain ⟨c', ds', htext', hc⟩ := hx.not_blank hkind
    have hlexeme := hfirst hkind hstop
    rw [List.flatMap_cons, List.flatMap_cons, List.append_assoc]
    constructor
    · rw [htext']
      exact fun d hd => Option.some.inj hd ▸ hc
    · rw [htext] at hlexeme ⊢
      rw [all_of_first hlexeme, ← htext, all_gap hcs hhead, hall]
      rfl

/-- Without the blanks, the lexemes are left. -/
theorem filter_spread (hitems : ∀ i ∈ items, i.1.kind ∉ [.blank, .comment]) :
    (items.flatMap fun i => i.1 :: gap i.2).filter (·.kind ∉ [.blank, .comment]) =
      items.map (·.1) := by
  induction items with
  | nil => rfl
  | cons i items ih =>
    obtain ⟨hi, hitems⟩ := List.forall_mem_cons.mp hitems
    rw [List.flatMap_cons, List.filter_append, ih hitems, List.map_cons,
      List.filter_cons_of_pos (by simpa only [decide_eq_true_eq] using hi), filter_gap]
    rfl

theorem kind_of_mem_spread (hitems : ∀ i ∈ items, i.1.kind ≠ .mismatch) {x : Lexeme}
    (hx : x ∈ items.flatMap fun i => i.1 :: gap i.2) : x.kind ≠ .mismatch := by
  obtain ⟨i, hi, hx⟩ := List.mem_flatMap.mp hx
  obtain rfl | hx := List.mem_cons.mp hx
  · exact hitems i hi
  · rw [kind_of_mem_gap hx]
    decide

end Spread

end Lexeme

namespace Token

/-- Where tokens stand does not matter to their kinds and texts. -/
theorem map_along (before : List Char) (xs : List Lexeme) :
    (along before xs).map (fun t => (t.kind, t.text)) =
      (xs.filter (·.kind ∉ [.blank, .comment])).map fun x => (x.kind, x.value) := by
  induction xs generalizing before with
  | nil => rfl
  | cons x xs ih =>
    rw [along]
    split_ifs with hskip
    · rw [ih, List.filter_cons_of_neg (by simpa only [decide_eq_true_eq, not_not] using hskip)]
    · rw [List.map_cons, ih, List.filter_cons_of_pos (by simpa only [decide_eq_true_eq] using hskip),
        List.map_cons]
      rfl

/-- Texts of all kinds but blanks and comments, written one after the other with blanks between
them, before the first and behind the last as one likes: their tokens are found again, in order, with
their kinds and values. -/
theorem ofText_spread {lead : List Char} {items : List (Lexeme × List Char)}
    (hlead : ∀ c ∈ lead, Lexeme.isBlankChar c)
    (hitems : ∀ i ∈ items, Lexeme.Pattern i.1.kind i.1.text i.1.value ∧
      i.1.kind ∉ [.blank, .comment])
    (hblank : ∀ i ∈ items, ∀ c ∈ i.2, Lexeme.isBlankChar c)
    (hgaps : ∀ i ∈ items.dropLast, i.2 ≠ []) :
    ∃ ts, ofText (String.ofList (lead ++ items.flatMap fun i => i.1.text ++ i.2)) = .ok ts ∧
      ts.map (fun t => (t.kind, t.text)) = items.map fun i => (i.1.kind, i.1.value) := by
  obtain ⟨hhead, hall⟩ := Lexeme.all_spread hitems hblank hgaps
  have hxs := Lexeme.all_gap hlead hhead
  rw [hall] at hxs
  have hstray : ∀ x ∈ Lexeme.gap lead ++ items.flatMap fun i => i.1 :: Lexeme.gap i.2,
      x.kind ≠ .mismatch := by
    refine List.forall_mem_append.mpr ⟨fun x hx => ?_, fun x => ?_⟩
    · rw [Lexeme.kind_of_mem_gap hx]
      decide
    · exact Lexeme.kind_of_mem_spread fun i hi => (hitems i hi).1.kind_ne
  refine ⟨along [] (Lexeme.gap lead ++ items.flatMap fun i => i.1 :: Lexeme.gap i.2), ?_, ?_⟩
  · rw [ofText, String.toList_ofList, hxs]
    exact place_along hstray
  · rw [map_along, List.filter_append, Lexeme.filter_gap, List.nil_append,
      Lexeme.filter_spread fun i hi => (hitems i hi).2, List.map_map]
    rfl

/-- A number, a keyword, a name, signs that would be others next to each other, and a text with an
escape and the other quote. -/
def spreadSample : List (Lexeme × List Char) :=
  [(⟨.number, "1.5".toList⟩, ['\t']), (⟨.forallWord, "forall".toList⟩, [' ']),
    (⟨.ident, "x_1".toList⟩, ['\n', ' ']), (⟨.sub, "-".toList⟩, [' ']), (⟨.gt, ">".toList⟩, ['\r']),
    (⟨.div, "/".toList⟩, [' ']), (⟨.div, "/".toList⟩, [' ']), (⟨.string, "'\"\\n'".toList⟩, [])]

theorem ofText_spread_sample : ∃ ts, ofText "1.5\tforall x_1\n - >\r/ / '\"\\n'" = .ok ts ∧
    ts.map (fun t => (t.kind, t.text)) = [(.number, "1.5"), (.forallWord, "forall"), (.ident, "x_1"),
      (.sub, "-"), (.gt, ">"), (.div, "/"), (.div, "/"), (.string, "\"\n")] := by
  have hall {p : Char → Bool} {cs : List Char} (h : cs.all p) : ∀ c ∈ cs, p c :=
    List.all_eq_true.mp h
  have hnumber : Lexeme.Pattern .number "1.5".toList "1.5" :=
    @Lexeme.Pattern.decimal ['1'] ['5'] (by decide) (hall (by decide)) (by decide) (hall (by decide))
  have hkeyword : Lexeme.Pattern .forallWord "forall".toList "forall" :=
    @Lexeme.Pattern.word 'f' "orall".toList (by decide) (hall (by decide))
  have hident : Lexeme.Pattern .ident "x_1".toList "x_1" :=
    @Lexeme.Pattern.word 'x' "_1".toList (by decide) (hall (by decide))
  have hstring : Lexeme.Pattern .string "'\"\\n'".toList "\"\n" :=
    @Lexeme.Pattern.string '\x27' "\"\\n".toList (by decide) (by simp)
  have hitems : ∀ i ∈ spreadSample, Lexeme.Pattern i.1.kind i.1.text i.1.value ∧
      i.1.kind ∉ [.blank, .comment] := by
    simp only [spreadSample, List.forall_mem_cons]
    refine ⟨⟨hnumber, ?_⟩, ⟨hkeyword, ?_⟩, ⟨hident, ?_⟩, ⟨.sign ?_, ?_⟩, ⟨.sign ?_, ?_⟩, ⟨.sign ?_, ?_⟩,
      ⟨.sign ?_, ?_⟩, ⟨hstring, ?_⟩, nofun⟩
    all_goals decide
  have hblank : spreadSample.all fun i => i.2.all Lexeme.isBlankChar := by decide
  have hspread := ofText_spread (List.forall_mem_nil _) hitems
    (fun i hi => hall (List.all_eq_true.mp hblank i hi)) (by decide)
  have htext : String.ofList ([] ++ spreadSample.flatMap fun i => i.1.text ++ i.2) =
      "1.5\tforall x_1\n - >\r/ / '\"\\n'" := by decide
  rw [htext] at hspread
  exact hspread

end Token

end TraitCalculus
