import TraitCalculus.Proofs.Scanning

/-! What a parser does with given words, wherever they stand. After the words `ws` a parser goes
on as another one, which for a finished reading is the parser that returns its result. Such facts
compose along sequences, and a loop is followed from one round to the next. -/
namespace TraitCalculus

/-- A token without its place. -/
abbrev Word := Kind × String

def Token.word (t : Token) : Word := (t.kind, t.text)

theorem Token.kind_of_word {t : Token} {w : Word} (h : t.word = w) : t.kind = w.1 :=
  congrArg Prod.fst h

theorem Token.text_of_word {t : Token} {w : Word} (h : t.word = w) : t.text = w.2 :=
  congrArg Prod.snd h

namespace Parser

variable {α β : Type}

/-- After the words `ws` the parser goes on as one with the property `Q`, if there are fewer than
`N` tokens in all and the kind of the next one is not among `no`. -/
def Leads (N : Nat) (no : List Kind) (p : Parser α) (ws : List Word) (Q : Parser α → Prop) : Prop :=
  ∀ finish ts rest, ts.map Token.word = ws → (ts ++ rest).length < N →
    (rest.headD finish).kind ∉ no → ∃ q, Q q ∧ p finish (ts ++ rest) = q finish rest

/-- After the words `ws` the parser returns a result with the property `P`. -/
def Takes (N : Nat) (no : List Kind) (p : Parser α) (ws : List Word) (P : α → Prop) : Prop :=
  Leads N no p ws fun q => ∃ a, P a ∧ q = Pure.pure a

/-- What follows a phrase does not continue it: the words `ws` do not, or there are none and
neither does what follows them. -/
def Ends (no : List Kind) (ws : List Word) (no' : List Kind) : Prop :=
  match ws with
  | [] => no ⊆ no'
  | w :: _ => w.1 ∉ no

section

variable {M N : Nat} {no no' : List Kind} {ws ws' : List Word} {w : Word} {p q : Parser α}
  {Q Q' : Parser α → Prop} {P P' : α → Prop}

theorem ends_cons (h : w.1 ∉ no) : Ends no (w :: ws) no' := h

theorem Ends.headD {finish : Token} {ts rest : List Token} (h : Ends no ws no')
    (hws : ts.map Token.word = ws) (hrest : (rest.headD finish).kind ∉ no') :
    ((ts ++ rest).headD finish).kind ∉ no := by
  cases ts with
  | nil =>
    subst hws
    exact fun hmem => hrest (h hmem)
  | cons t ts =>
    subst hws
    exact h

/-- There are not fewer than no tokens. -/
theorem leads_of_eq_zero (hN : N = 0) : Leads N no p ws Q :=
  fun _ _ _ _ hlen => absurd hlen (hN ▸ Nat.not_lt_zero _)

theorem Leads.mono (h : Leads N no p ws Q) (hM : M ≤ N) : Leads M no p ws Q :=
  fun finish ts rest hts hlen => h finish ts rest hts (lt_of_lt_of_le hlen hM)

theorem Leads.imp (h : Leads N no p ws Q) (hQ : ∀ q, Q q → Q' q) : Leads N no p ws Q' := by
  intro finish ts rest hts hlen hno
  obtain ⟨q, hq, hrun⟩ := h finish ts rest hts hlen hno
  exact ⟨q, hQ q hq, hrun⟩

theorem Leads.subset (h : Leads N no p ws Q) (hno : no ⊆ no') : Leads N no' p ws Q :=
  fun finish ts rest hts hlen hk => h finish ts rest hts hlen fun hmem => hk (hno hmem)

theorem Takes.imp (h : Takes N no p ws P) (hP : ∀ a, P a → P' a) : Takes N no p ws P' :=
  Leads.imp h fun _ ⟨a, ha, hq⟩ => ⟨a, hP a ha, hq⟩

/-- Before any word. -/
theorem leads_nil (hp : Q p) : Leads N no p [] Q := by
  intro finish ts rest hts _ _
  obtain rfl := List.map_eq_nil_iff.mp hts
  exact ⟨p, hp, rfl⟩

theorem takes_pure {a : α} (ha : P a) : Takes N no (Pure.pure a) [] P := leads_nil ⟨a, ha, rfl⟩

/-- The words of two phrases, one behind the other. -/
theorem Leads.trans (h : Leads N no p ws Q) (hends : Ends no ws' no')
    (h' : ∀ q, Q q → Leads (N - ws.length) no' q ws' Q') : Leads N no' p (ws ++ ws') Q' := by
  intro finish ts rest hts hlen hrest
  obtain ⟨ts₁, ts₂, rfl, hts₁, hts₂⟩ := List.map_eq_append_iff.mp hts
  have hcount : ws.length = ts₁.length := by
    rw [← hts₁, List.length_map]
  rw [List.append_assoc] at hlen ⊢
  obtain ⟨q, hq, hrun⟩ := h finish ts₁ (ts₂ ++ rest) hts₁ hlen (hends.headD hts₂ hrest)
  rw [hrun]
  rw [List.length_append] at hlen
  exact h' q hq finish ts₂ rest hts₂ (by omega) hrest

/-- Behind the words of its first part, a sequence goes on as the second. -/
theorem Takes.leads {f : α → Parser β} {Q : Parser β → Prop} (h : Takes N no p ws P)
    (h' : ∀ a, P a → Q (f a)) : Leads N no (p >>= f) ws Q := by
  intro finish ts rest hts hlen hno
  obtain ⟨_, ⟨a, ha, rfl⟩, hrun⟩ := h finish ts rest hts hlen hno
  exact ⟨f a, h' a ha, bind_of_ok hrun⟩

theorem Takes.map {f : α → β} {P' : β → Prop} (h : Takes N no p ws P) (hf : ∀ a, P a → P' (f a)) :
    Takes N no (p >>= fun a => Pure.pure (f a)) ws P' :=
  h.leads fun a ha => ⟨f a, hf a ha, rfl⟩

/-- In a sequence, the words of the first part come first. -/
theorem Takes.bind {f : α → Parser β} {Q : Parser β → Prop} (h : Takes N no p ws P)
    (hends : Ends no ws' no') (h' : ∀ a, P a → Leads (N - ws.length) no' (f a) ws' Q) :
    Leads N no' (p >>= f) (ws ++ ws') Q := by
  refine Leads.trans (h.leads fun a ha => ⟨a, ha, rfl⟩ : Leads N no _ ws fun q => ∃ a, P a ∧ q = f a)
    hends ?_
  rintro _ ⟨a, ha, rfl⟩
  exact h' a ha

/-- Behind the last word, before the next token. -/
theorem Leads.stop (h : Leads N no p ws Q) (hno : no ⊆ no')
    (h' : ∀ q, Q q → Leads (N - ws.length) no' q [] Q') : Leads N no' p ws Q' := by
  have htrans : Leads N no' p (ws ++ []) Q' := h.trans hno h'
  rwa [List.append_nil] at htrans

theorem Takes.stop {f : α → Parser β} {Q : Parser β → Prop} (h : Takes N no p ws P)
    (hno : no ⊆ no') (h' : ∀ a, P a → Leads (N - ws.length) no' (f a) [] Q) :
    Leads N no' (p >>= f) ws Q := by
  have hbind : Leads N no' (p >>= f) (ws ++ []) Q := h.bind hno h'
  rwa [List.append_nil] at hbind

/-- A look at the next word. -/
theorem Leads.peek {f : Token → Parser α} (h : ∀ t, t.word = w → Leads N no (f t) (w :: ws) Q) :
    Leads N no (peek >>= f) (w :: ws) Q := by
  intro finish ts rest hts hlen hno
  obtain ⟨t, ts, rfl, ht, -⟩ := List.map_eq_cons_iff.mp hts
  exact h t ht finish (t :: ts) rest hts hlen hno

theorem Leads.kind {f : Kind → Parser α} (h : Leads N no (f w.1) (w :: ws) Q) :
    Leads N no (kind >>= f) (w :: ws) Q := by
  intro finish ts rest hts hlen hno
  obtain ⟨t, ts, rfl, rfl, -⟩ := List.map_eq_cons_iff.mp hts
  exact h finish (t :: ts) rest hts hlen hno

/-- A look behind the last word. -/
theorem leads_kind_nil {f : Kind → Parser α} (h : ∀ k, k ∉ no → Leads N no (f k) [] Q) :
    Leads N no (Parser.kind >>= f) [] Q := by
  intro finish ts rest hts hlen hno
  obtain rfl := List.map_eq_nil_iff.mp hts
  have hget : rest.getD 0 finish = rest.headD finish := by
    cases rest <;> rfl
  have hrun := h _ hno finish [] rest rfl hlen hno
  rw [← hget] at hrun
  exact hrun

/-- A look at a word further ahead that makes no difference. -/
theorem leads_kindAhead {f : Kind → Parser α} {n : Nat} (h : ∀ k, Leads N no (f k) ws Q) :
    Leads N no (Parser.kindAhead n >>= f) ws Q :=
  fun finish ts rest => h ((ts ++ rest).getD n finish).kind finish ts rest

theorem Leads.kindAhead {f : Kind → Parser α} {n : Nat} {v : Word} (hv : ws[n]? = some v)
    (h : Leads N no (f v.1) ws Q) : Leads N no (kindAhead n >>= f) ws Q := by
  intro finish ts rest hts hlen hno
  subst hts
  rw [List.getElem?_map] at hv
  obtain ⟨t, ht, rfl⟩ := Option.map_eq_some_iff.mp hv
  have hget : (ts ++ rest).getD n finish = t := by
    obtain ⟨hn, -⟩ := List.getElem?_eq_some_iff.mp ht
    rw [List.getD_eq_getElem?_getD, List.getElem?_append_left hn, ht]
    rfl
  have hrun := h finish ts rest rfl hlen hno
  show ∃ q, Q q ∧ f ((ts ++ rest).getD n finish).kind finish (ts ++ rest) = q finish rest
  rw [hget]
  exact hrun

theorem Leads.next {f : Token → Parser α} (h : ∀ t, t.word = w → Leads (N - 1) no (f t) ws Q) :
    Leads N no (next >>= f) (w :: ws) Q := by
  intro finish ts rest hts hlen hno
  obtain ⟨t, ts, rfl, ht, hws⟩ := List.map_eq_cons_iff.mp hts
  rw [List.cons_append, List.length_cons] at hlen
  exact h t ht finish ts rest hws (by omega) hno

theorem takes_expect {k : Kind} {x : String} :
    Takes N no (expect [k]) [(k, x)] (·.word = (k, x)) := by
  rw [expect_eq]
  refine Leads.peek fun t ht => ?_
  rw [if_pos (List.mem_singleton.mpr (Token.kind_of_word ht))]
  intro finish ts rest hts hlen hno
  obtain ⟨u, ts, rfl, hu, hnil⟩ := List.map_eq_cons_iff.mp hts
  obtain rfl := List.map_eq_nil_iff.mp hnil
  exact ⟨Pure.pure u, ⟨u, hu, rfl⟩, rfl⟩

theorem takes_ident {x : String} : Takes N no ident [(.ident, x)] (· = x) :=
  takes_expect.map fun _ ht => Token.text_of_word ht

/-- Behind a parser that is not stopped by any word. -/
theorem Takes.then {f : α → Parser β} {Q : Parser β → Prop} (h : Takes N [] p ws P)
    (h' : ∀ a, P a → Leads (N - ws.length) no (f a) ws' Q) : Leads N no (p >>= f) (ws ++ ws') Q := by
  have hends : Ends [] ws' no := by
    cases ws' with
    | nil => exact List.nil_subset no
    | cons w ws' => exact List.not_mem_nil
  exact h.bind hends h'

/-- A word that is demanded, and what follows it. -/
theorem Leads.expect {f : Token → Parser β} {k : Kind} {x : String} {Q : Parser β → Prop}
    (h : ∀ t, t.word = (k, x) → Leads (N - 1) no (f t) ws Q) :
    Leads N no (expect [k] >>= f) ((k, x) :: ws) Q :=
  takes_expect.then h

theorem Leads.ident {f : String → Parser β} {x : String} {Q : Parser β → Prop}
    (h : Leads (N - 1) no (f x) ws Q) : Leads N no (ident >>= f) ((.ident, x) :: ws) Q :=
  takes_ident.then fun _ ha => ha ▸ h

theorem Leads.skipIf_take {f : Unit → Parser β} {k : Kind} {x : String} {Q : Parser β → Prop}
    (h : Leads (N - 1) no (f ()) ws Q) : Leads N no (skipIf k >>= f) ((k, x) :: ws) Q := by
  have hskip : Takes N [] (skipIf k) [(k, x)] fun _ => True := by
    rw [skipIf_eq]
    refine Leads.kind ?_
    rw [if_pos rfl]
    exact Leads.next fun _ _ => takes_pure trivial
  exact hskip.then fun _ _ => h

theorem Leads.skipIf_keep {f : Unit → Parser β} {k : Kind} {Q : Parser β → Prop} (hk : w.1 ≠ k)
    (h : Leads N no (f ()) (w :: ws) Q) : Leads N no (skipIf k >>= f) (w :: ws) Q := by
  intro finish ts rest hts hlen hno
  obtain ⟨t, ts, rfl, rfl, -⟩ := List.map_eq_cons_iff.mp hts
  have hrun : skipIf k finish (t :: ts ++ rest) = .ok ((), t :: ts ++ rest) := by
    show Except.ok ((), if t.kind = k then (t :: ts ++ rest).drop 1 else t :: ts ++ rest) = _
    rw [if_neg (show ¬t.kind = k from hk)]
  rw [bind_of_ok hrun]
  exact h finish (t :: ts) rest hts hlen hno

end

/-- All kinds but this one, which is then the only one that may follow. -/
def butFor (k : Kind) : List Kind := Kind.all.filter (· ≠ k)

theorem eq_of_not_mem_butFor {k k' : Kind} (h : k' ∉ butFor k) : k' = k := by
  by_contra hne
  have hall : k' ∈ Kind.all := by
    cases k' <;> decide
  exact h (List.mem_filter.mpr ⟨hall, by simpa using hne⟩)

end Parser

/-- More phrases of a list, each behind a comma, up to the word that closes it. -/
def listedMore (close : Word) : List (List Word) → List Word
  | [] => [close]
  | ws :: wss => (.comma, ",") :: ws ++ listedMore close wss

/-- Phrases with commas between them, up to the word that closes the list. -/
def listed (close : Word) : List (List Word) → List Word
  | [] => [close]
  | ws :: wss => ws ++ listedMore close wss

/-- Names with plus signs between them. -/
def plusNames : List String → List Word
  | [] => []
  | [b] => [(.ident, b)]
  | b :: bs => (.ident, b) :: (.add, "+") :: plusNames bs

/-- The bounds of a type variable, nothing if there are none, and the dot behind them. -/
def boundWords : List String → List Word
  | [] => [(.dot, ".")]
  | bs => (.implWord, "impl") :: plusNames bs ++ [(.dot, ".")]

namespace Parser

theorem ends_listedMore {close : Word} {no no' : List Kind} (hcomma : .comma ∉ no)
    (hclose : close.1 ∉ no) (wss : List (List Word)) : Ends no (listedMore close wss) no' := by
  cases wss with
  | nil => exact hclose
  | cons ws wss => exact hcomma

/-- Commas are taken where they stand. -/
theorem Leads.listedMore {α : Type} {N : Nat} {no : List Kind} {p : Parser α}
    {Q : Parser α → Prop} {close : Word} {wss : List (List Word)} (hclose : close.1 ≠ .comma)
    (h : Leads N no p (listed close wss) Q) :
    Leads N no (skipIf .comma >>= fun _ => p) (listedMore close wss) Q := by
  cases wss with
  | nil => exact Leads.skipIf_keep hclose h
  | cons ws wss => exact Leads.skipIf_take (h.mono (Nat.sub_le N 1))

theorem takes_labelled {α : Type} {value : Parser α} {unlined : α → α} {sign : Word}
    {no : List Kind} {N n : Nat} {fs : List ((String × α) × List Word)} {done : List (String × α)}
    (hcomma : .comma ∉ no) (hbrace : .rbrace ∉ no)
    (hlabels : (done.map (·.1) ++ fs.map (·.1.1)).Nodup) (hN : N ≤ n)
    (hvalue : ∀ f ∈ fs, Takes N no value f.2 (unlined · = f.1.2)) :
    Takes N [] (labelled sign.1 value done n)
      (listed (.rbrace, "\x7d") (fs.map fun f => (.ident, f.1.1) :: sign :: f.2))
      fun gs => gs.map (fun g => (g.1, unlined g.2)) =
        done.reverse.map (fun g => (g.1, unlined g.2)) ++ fs.map (·.1) := by
  induction n generalizing N fs done with
  | zero => exact leads_of_eq_zero (by omega)
  | succ n ih =>
    unfold labelled
    cases fs with
    | nil =>
      refine Leads.kind ?_
      rw [if_pos rfl]
      exact Leads.next fun _ _ => takes_pure (List.append_nil _).symm
    | cons f fs =>
      obtain ⟨⟨label, a⟩, ws⟩ := f
      refine Leads.kind ?_
      rw [if_neg (by decide : Kind.ident ≠ .rbrace)]
      refine Leads.expect fun l hl => ?_
      have hlabel : l.text = label := Token.text_of_word hl
      have hnew : ¬done.any (·.1 = l.text) := by
        rw [hlabel]
        intro hany
        obtain ⟨g, hg, hgl⟩ := List.any_eq_true.mp hany
        have hmem : label ∈ done.map (·.1) := List.mem_map.mpr ⟨g, hg, of_decide_eq_true hgl⟩
        exact (List.nodup_append.mp hlabels).2.2 _ hmem _ List.mem_cons_self rfl
      rw [if_neg hnew]
      refine Leads.expect fun _ _ => ?_
      have ha : Takes (N - 1 - 1) no value ws (unlined · = a) :=
        Leads.mono (hvalue _ List.mem_cons_self) (by omega)
      refine Takes.bind ha (ends_listedMore hcomma hbrace _) fun a' ha' => ?_
      refine Leads.listedMore (by decide) ?_
      have hdone : (((l.text, a') :: done).map (·.1) ++ fs.map (·.1.1)).Nodup := by
        rw [hlabel]
        exact List.perm_middle.nodup_iff.mp hlabels
      refine Takes.imp (ih hdone (by omega) fun f hf =>
        Leads.mono (hvalue f (List.mem_cons_of_mem _ hf)) (by omega)) fun gs hgs => ?_
      rw [hgs, hlabel, List.map_cons, ← ha']
      simp

theorem takes_boundList {N n : Nat} (bs done : List String) (hN : N ≤ n) :
    Takes N (butFor .dot) (boundList done n) (plusNames bs) (· = done.reverse ++ bs) := by
  induction n generalizing N bs done with
  | zero => exact leads_of_eq_zero (by omega)
  | succ n ih =>
    unfold boundList
    rcases bs with _ | ⟨b, _ | ⟨c, bs⟩⟩
    · refine leads_kind_nil fun k hk => ?_
      rw [if_pos (eq_of_not_mem_butFor hk)]
      exact takes_pure (List.append_nil _).symm
    · refine Leads.kind ?_
      rw [if_neg (by simp)]
      refine Leads.ident ?_
      -- the next token is the dot, which is no plus sign
      intro finish ts rest hts hlen hno
      obtain rfl := List.map_eq_nil_iff.mp hts
      have hdot := eq_of_not_mem_butFor hno
      have hskip : skipIf .add finish ([] ++ rest) = .ok ((), rest) := by
        show Except.ok ((), if (rest.headD finish).kind = .add then rest.drop 1 else rest) = _
        rw [if_neg (by rw [hdot]; decide)]
      rw [bind_of_ok hskip]
      have hrest := ih [] (b :: done) (by omega : N - 1 ≤ n) finish [] rest rfl hlen hno
      simpa using hrest
    · refine Leads.kind ?_
      rw [if_neg (by simp)]
      refine Leads.ident (Leads.skipIf_take ?_)
      refine Takes.imp (ih (c :: bs) (b :: done) (by omega)) ?_
      rintro _ rfl
      simp

theorem takes_bounds {N n : Nat} (bs : List String) (hN : N ≤ n) :
    Takes N [] (bounds n) (boundWords bs) (· = bs) := by
  unfold bounds
  match bs with
  | [] =>
    refine Leads.kind ?_
    rw [if_neg (by decide)]
    exact Leads.expect fun _ _ => takes_pure rfl
  | b :: bs =>
    refine Leads.kind ?_
    rw [if_pos rfl]
    refine Leads.next fun _ _ => ?_
    refine Takes.bind (takes_boundList (b :: bs) [] (by omega)) (ends_cons (by decide)) ?_
    rintro _ rfl
    exact Leads.expect fun _ _ => takes_pure rfl

end Parser

end TraitCalculus
