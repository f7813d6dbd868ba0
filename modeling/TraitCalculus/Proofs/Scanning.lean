import Mathlib
import TraitCalculus.Program.Parser

/-! What all parsers have in common. A result takes tokens from the front and depends on few of
those that it leaves; a failure lies at one of the tokens; fuel that exceeds the number of tokens
lasts, and more of it makes no difference. The four are carried along together. -/
namespace TraitCalculus

theorem Token.kind_finishOf (ts : List Token) : (Token.finishOf ts).kind = .finish := by
  unfold Token.finishOf
  cases ts.getLast? <;> rfl

namespace Parser

variable {α β : Type}

theorem bind_of_error {p : Parser α} {f : α → Parser β} {finish : Token} {ts : List Token}
    {e : ParseError} (h : p finish ts = .error e) : (p >>= f) finish ts = .error e := by
  show Parser.bind p f finish ts = _
  rw [Parser.bind, h]

theorem bind_of_ok {p : Parser α} {f : α → Parser β} {finish : Token} {ts rest : List Token}
    {a : α} (h : p finish ts = .ok (a, rest)) : (p >>= f) finish ts = f a finish rest := by
  show Parser.bind p f finish ts = _
  rw [Parser.bind, h]

/-- A sequence that ends well passes through a result of its first part. -/
theorem exists_of_bind_eq_ok {p : Parser α} {f : α → Parser β} {finish : Token}
    {ts rest : List Token} {b : β} (h : (p >>= f) finish ts = .ok (b, rest)) :
    ∃ a mid, p finish ts = .ok (a, mid) ∧ f a finish mid = .ok (b, rest) := by
  cases hp : p finish ts with
  | error e =>
    rw [bind_of_error hp] at h
    cases h
  | ok s =>
    rw [bind_of_ok hp] at h
    exact ⟨s.1, s.2, rfl, h⟩

/-- What can be wrong with tokens: one of them, or the one behind the last, is of no kind that was
expected, a label occurs again, or a number has no value. -/
inductive Faulty (finish : Token) (ts : List Token) : ParseError → Prop
  | expected {t : Token} {kinds : List Kind} (ht : t ∈ finish :: ts) (hk : t.kind ∉ kinds) :
      Faulty finish ts (.malformed ⟨some t.line, .expected kinds t.text⟩)
  | duplicate {t : Token} (ht : t ∈ ts) (hk : t.kind = .ident) :
      Faulty finish ts (.malformed ⟨some t.line, .duplicateLabel t.text⟩)
  | number {t : Token} {e : Text.NumberError} (ht : t ∈ ts) (hk : t.kind = .number)
      (he : Text.readInteger t.text = .error e) : Faulty finish ts (.number e)

theorem Faulty.mono {finish : Token} {ts us : List Token} {e : ParseError}
    (h : Faulty finish ts e) (hts : ts <:+ us) : Faulty finish us e := by
  cases h with
  | expected ht hk => exact .expected (List.cons_subset_cons finish hts.subset ht) hk
  | duplicate ht hk => exact .duplicate (hts.subset ht) hk
  | number ht hk he => exact .number (hts.subset ht) hk he

/-- How `p` reads tokens of which `t` is the first, and how `q` does, which is `p` with more fuel.
The token behind the last one counts as the first if there is none. -/
structure ScansAt (t : Token) (N m d : Nat) (p q : Parser α) : Prop where
  /-- A result takes at least `d` tokens from the front. -/
  takes : ∀ {finish : Token} {ts rest : List Token} {a : α}, finish.kind = .finish →
    ts.headD finish = t → p finish ts = .ok (a, rest) → rest <:+ ts ∧ rest.length + d ≤ ts.length
  /-- It depends on at most `m` of the tokens it leaves. -/
  keeps : ∀ {finish : Token} {pre v tail : List Token} {a : α}, finish.kind = .finish →
    (pre ++ tail).headD finish = t → p finish (pre ++ tail) = .ok (a, v ++ tail) →
    m ≤ v.length → ∀ finish' tail', p finish' (pre ++ tail') = .ok (a, v ++ tail')
  /-- It fails at one of the tokens, or for want of fuel. -/
  faults : ∀ {finish : Token} {ts : List Token} {e : ParseError}, finish.kind = .finish →
    ts.headD finish = t → p finish ts = .error e → e ≠ .outOfFuel → Faulty finish ts e
  /-- On fewer than `N` tokens fuel lasts, and more fuel makes no difference. -/
  lasts : ∀ {finish : Token} {ts : List Token}, finish.kind = .finish → ts.headD finish = t →
    ts.length < N → p finish ts ≠ .error .outOfFuel ∧ q finish ts = p finish ts

/-- How `p` reads, and `q`, which is `p` with more fuel: a result takes at least `d` tokens and
depends on at most `m` of those it leaves, and fuel lasts for fewer than `N`. -/
def Scans (N m d : Nat) (p q : Parser α) : Prop := ∀ t, ScansAt t N m d p q

section

variable {t : Token} {M N m m' d d' n n' : Nat} {p q p' q' : Parser α}

theorem ScansAt.weaken (h : ScansAt t N m d p q) (hm : m ≤ m') (hd : d' ≤ d) :
    ScansAt t N m' d' p q where
  takes hf ht hp := by
    obtain ⟨hsuf, hlen⟩ := h.takes hf ht hp
    exact ⟨hsuf, by omega⟩
  keeps hf ht hp hv := h.keeps hf ht hp (hm.trans hv)
  faults := h.faults
  lasts := h.lasts

theorem Scans.weaken (h : Scans N m d p q) (hm : m ≤ m') (hd : d' ≤ d) : Scans N m' d' p q :=
  fun t => (h t).weaken hm hd

theorem Scans.mono (h : Scans N m d p q) (hM : M ≤ N) : Scans M m d p q := fun t =>
  { takes := (h t).takes, keeps := (h t).keeps, faults := (h t).faults,
    lasts := fun hf ht hlen => (h t).lasts hf ht (lt_of_lt_of_le hlen hM) }

/-- A parser that never succeeds, and that does not lack fuel. -/
theorem ScansAt.of_error (h : ∀ {finish ts}, finish.kind = .finish → ts.headD finish = t →
    ∃ e, p finish ts = .error e ∧ Faulty finish ts e) : ScansAt t N m d p p where
  takes hf ht hp := by
    obtain ⟨e, he, -⟩ := h hf ht
    rw [he] at hp
    cases hp
  keeps hf ht hp := by
    obtain ⟨e, he, -⟩ := h hf ht
    rw [he] at hp
    cases hp
  faults hf ht hp _ := by
    obtain ⟨e, he, hfaulty⟩ := h hf ht
    exact Except.error.inj (he.symm.trans hp) ▸ hfaulty
  lasts hf ht _ := by
    obtain ⟨e, he, hfaulty⟩ := h hf ht
    rw [he]
    refine ⟨fun heq => ?_, rfl⟩
    obtain rfl := Except.error.inj heq
    cases hfaulty

/-- Without fuel there is no result. -/
theorem scans_outOfFuel (hN : N ≤ 0) : Scans N m d (fail .outOfFuel) q := fun _ =>
  { takes := fun _ _ hp => (nomatch hp), keeps := fun _ _ hp => (nomatch hp),
    faults := fun _ _ hp hne => absurd (Except.error.inj hp).symm hne,
    lasts := fun _ _ hlen => by omega }

/-- In a sequence the tokens taken add up. The second part takes a token or is followed by one it
looks at, so that the first is followed by one. -/
theorem ScansAt.bind {f g : α → Parser β} (hp : ScansAt t N 1 d p q)
    (hf : ∀ a, Scans (N - d) m d' (f a) (g a)) (h : 1 ≤ m + d') :
    ScansAt t N m (d + d') (p >>= f) (q >>= g) where
  takes {finish ts rest b} hfin ht hb := by
    obtain ⟨a, mid, hpa, hfa⟩ := exists_of_bind_eq_ok hb
    obtain ⟨hmid, hmidlen⟩ := hp.takes hfin ht hpa
    obtain ⟨hrest, hrestlen⟩ := (hf a (mid.headD finish)).takes hfin rfl hfa
    exact ⟨hrest.trans hmid, by omega⟩
  keeps {finish pre v tail b} hfin ht hb hv finish' tail' := by
    obtain ⟨a, mid, hpa, hfa⟩ := exists_of_bind_eq_ok hb
    obtain ⟨⟨w, rfl⟩, hlen⟩ := (hf a (mid.headD finish)).takes hfin rfl hfa
    rw [← List.append_assoc] at hpa hfa
    simp only [List.length_append] at hlen
    have hpa' := hp.keeps hfin ht hpa (by rw [List.length_append]; omega) finish' tail'
    rw [bind_of_ok hpa']
    exact (hf a _).keeps hfin rfl hfa hv finish' tail'
  faults {finish ts e} hfin ht hb hne := by
    cases hpa : p finish ts with
    | error e' =>
      obtain rfl := Except.error.inj ((bind_of_error hpa).symm.trans hb)
      exact hp.faults hfin ht hpa hne
    | ok s =>
      rw [bind_of_ok hpa] at hb
      exact ((hf s.1 _).faults hfin rfl hb hne).mono (hp.takes hfin ht hpa).1
  lasts {finish ts} hfin ht hlen := by
    obtain ⟨hne, hq⟩ := hp.lasts hfin ht hlen
    cases hpa : p finish ts with
    | error e =>
      rw [hpa] at hne hq
      rw [bind_of_error hpa, bind_of_error hq]
      exact ⟨fun he => hne (congrArg Except.error (Except.error.inj he)), rfl⟩
    | ok s =>
      obtain ⟨a, mid⟩ := s
      obtain ⟨-, hmidlen⟩ := hp.takes hfin ht hpa
      rw [hpa] at hq
      rw [bind_of_ok hpa, bind_of_ok hq]
      exact (hf a (mid.headD finish)).lasts hfin rfl (by omega)

theorem ScansAt.map (hp : ScansAt t N m d p q) (f : α → β) :
    ScansAt t N m d (p >>= fun a => Pure.pure (f a)) (q >>= fun a => Pure.pure (f a)) where
  takes hfin ht hb := by
    obtain ⟨a, mid, hpa, hfa⟩ := exists_of_bind_eq_ok hb
    cases hfa
    exact hp.takes hfin ht hpa
  keeps hfin ht hb hv finish' tail' := by
    obtain ⟨a, mid, hpa, hfa⟩ := exists_of_bind_eq_ok hb
    cases hfa
    rw [bind_of_ok (hp.keeps hfin ht hpa hv finish' tail')]
    rfl
  faults {finish ts e} hfin ht hb hne := by
    cases hpa : p finish ts with
    | error e' =>
      obtain rfl := Except.error.inj ((bind_of_error hpa).symm.trans hb)
      exact hp.faults hfin ht hpa hne
    | ok s =>
      rw [bind_of_ok hpa] at hb
      cases hb
  lasts {finish ts} hfin ht hlen := by
    obtain ⟨hne, hq⟩ := hp.lasts hfin ht hlen
    cases hpa : p finish ts with
    | error e =>
      rw [hpa] at hne hq
      rw [bind_of_error hpa, bind_of_error hq]
      exact ⟨fun he => hne (congrArg Except.error (Except.error.inj he)), rfl⟩
    | ok s =>
      rw [hpa] at hq
      rw [bind_of_ok hpa, bind_of_ok hq]
      exact ⟨nofun, rfl⟩

theorem Scans.map (hp : Scans N m d p q) (f : α → β) :
    Scans N m d (p >>= fun a => Pure.pure (f a)) (q >>= fun a => Pure.pure (f a)) :=
  fun t => (hp t).map f

/-- Both parts of a sequence take a token. -/
theorem Scans.both {f g : α → Parser β} (hp : Scans N 1 1 p q)
    (hf : ∀ a, Scans (N - 1) m 1 (f a) (g a)) : Scans N m 1 (p >>= f) (q >>= g) :=
  fun t => ((hp t).bind hf (by omega)).weaken le_rfl (by omega)

/-- The first part of a sequence takes a token. -/
theorem Scans.first {f g : α → Parser β} (hp : Scans N 1 1 p q)
    (hf : ∀ a, Scans (N - 1) 1 0 (f a) (g a)) : Scans N 1 1 (p >>= f) (q >>= g) :=
  fun t => (hp t).bind hf (by omega)

/-- The second part of a sequence takes a token. -/
theorem Scans.second {f g : α → Parser β} (hp : Scans N 1 0 p q)
    (hf : ∀ a, Scans N m 1 (f a) (g a)) : Scans N m 1 (p >>= f) (q >>= g) :=
  fun t => ((hp t).bind hf (by omega)).weaken le_rfl (by omega)

/-- Neither part of a sequence need take a token. -/
theorem Scans.neither {f g : α → Parser β} (hp : Scans N 1 0 p q)
    (hf : ∀ a, Scans N 1 0 (f a) (g a)) : Scans N 1 0 (p >>= f) (q >>= g) :=
  fun t => (hp t).bind hf (by omega)

theorem ScansAt.ite {c : Prop} [Decidable c] (hp : c → ScansAt t N m d p q)
    (hq : ¬c → ScansAt t N m d p' q') :
    ScansAt t N m d (if c then p else p') (if c then q else q') := by
  split_ifs with hc
  · exact hp hc
  · exact hq hc

theorem scans_pure (a : α) : Scans N 1 0 (Pure.pure a : Parser α) (Pure.pure a) := fun _ =>
  { takes := by
      intro finish ts rest b _ _ hp
      cases hp
      exact ⟨List.suffix_rfl, le_rfl⟩
    keeps := by
      intro finish pre v tail b _ _ hp _ finish' tail'
      obtain ⟨rfl, hv⟩ := Prod.mk.inj (Except.ok.inj hp)
      rw [List.append_cancel_right hv]
      rfl
    faults := nofun
    lasts := fun _ _ _ => ⟨nofun, rfl⟩ }

/-- None of the kinds is that of the first token. -/
theorem scansAt_refuse {kinds : List Kind} (hk : t.kind ∉ kinds) :
    ScansAt t N m d (refuse kinds : Parser α) (refuse kinds) := by
  refine .of_error fun {finish ts} _ ht => ⟨_, rfl, .expected ?_ (ht ▸ hk)⟩
  cases ts with
  | nil => exact List.mem_cons_self
  | cons u ts => exact List.mem_cons_of_mem finish List.mem_cons_self

/-- Succeeds on no tokens of which the first has this kind. -/
def Refuses (k : Kind) (p : Parser α) : Prop :=
  ∀ finish ts r, (ts.headD finish).kind = k → p finish ts ≠ .ok r

theorem Refuses.bind {k : Kind} {f : α → Parser β} (hp : Refuses k p) : Refuses k (p >>= f) := by
  intro finish ts r hk hb
  obtain ⟨a, mid, hpa, -⟩ := exists_of_bind_eq_ok hb
  exact hp finish ts _ hk hpa

theorem refuses_peek {k : Kind} {f : Token → Parser β} (hf : ∀ t, t.kind = k → Refuses k (f t)) :
    Refuses k (peek >>= f) :=
  fun finish ts r hk => hf _ hk finish ts r hk

theorem ScansAt.of_refuses (hp : ScansAt t N m d p q) (hr : Refuses t.kind p) :
    ScansAt t N m' d' p q where
  takes hfin ht hpa := absurd hpa (hr _ _ _ (by rw [ht]))
  keeps hfin ht hpa := absurd hpa (hr _ _ _ (by rw [ht]))
  faults := hp.faults
  lasts := hp.lasts

/-- A reading that takes a token, or leaves one it looks at, has one in front. -/
theorem ScansAt.exists_cons {finish : Token} {pre v tail : List Token} {a : α}
    (hp : ScansAt t N m d p q) (h : 1 ≤ m + d) (hf : finish.kind = .finish)
    (ht : (pre ++ tail).headD finish = t) (hpa : p finish (pre ++ tail) = .ok (a, v ++ tail))
    (hv : m ≤ v.length) : ∃ pre', pre = t :: pre' := by
  obtain ⟨-, hlen⟩ := hp.takes hf ht hpa
  simp only [List.length_append] at hlen
  cases pre with
  | nil => simp only [List.length_nil] at hlen; omega
  | cons u pre =>
    obtain rfl : u = t := ht
    exact ⟨pre, rfl⟩

/-- What is read after a look at the next token. -/
theorem scans_peek {f g : Token → Parser β} (h : 1 ≤ m + d)
    (hf : ∀ t, ScansAt t N m d (f t) (g t)) : Scans N m d (peek >>= f) (peek >>= g) := fun t =>
  { takes := by
      rintro finish ts rest a hfin rfl hb
      exact (hf _).takes hfin rfl hb
    keeps := by
      rintro finish pre v tail a hfin ht hb hv finish' tail'
      have hb' : f t finish (pre ++ tail) = .ok (a, v ++ tail) := by
        rw [← ht]
        exact hb
      obtain ⟨pre, rfl⟩ := (hf t).exists_cons h hfin ht hb' hv
      exact (hf t).keeps hfin ht hb' hv finish' tail'
    faults := by
      rintro finish ts e hfin rfl hb
      exact (hf _).faults hfin rfl hb
    lasts := by
      rintro finish ts hfin rfl hlen
      exact (hf _).lasts hfin rfl hlen }

theorem scans_kind {f g : Kind → Parser β} (h : 1 ≤ m + d)
    (hf : ∀ t : Token, ScansAt t N m d (f t.kind) (g t.kind)) :
    Scans N m d (kind >>= f) (kind >>= g) := by
  have hhead (finish : Token) (ts : List Token) : ts.getD 0 finish = ts.headD finish := by
    cases ts <;> rfl
  have heq (f : Kind → Parser β) : kind >>= f = peek >>= fun t => f t.kind := by
    funext finish ts
    exact congrArg (fun u : Token => f u.kind finish ts) (hhead finish ts)
  rw [heq f, heq g]
  exact scans_peek h hf

/-- A look at a token further ahead. Either it makes no difference, or so many tokens are taken
that the token is among them or just behind. -/
theorem ScansAt.kindAhead {n : Nat} {f g : Kind → Parser β}
    (hf : ∀ k, ScansAt t N m d (f k) (g k)) (hn : (∀ k k', f k = f k') ∨ n < m + d) :
    ScansAt t N m d (kindAhead n >>= f) (kindAhead n >>= g) where
  takes hfin ht hb := (hf _).takes hfin ht hb
  keeps {finish pre v tail a} hfin ht hb hv finish' tail' := by
    have hrun := (hf ((pre ++ tail).getD n finish).kind).keeps hfin ht hb hv finish' tail'
    show f ((pre ++ tail').getD n finish').kind finish' (pre ++ tail') = .ok (a, v ++ tail')
    rcases hn with hconst | hfar
    · rw [hconst _ ((pre ++ tail).getD n finish).kind]
      exact hrun
    · obtain ⟨-, hlen⟩ := (hf ((pre ++ tail).getD n finish).kind).takes hfin ht hb
      simp only [List.length_append] at hlen
      have hget : (pre ++ tail').getD n finish' = (pre ++ tail).getD n finish := by
        rw [List.getD_append _ _ _ _ (by omega), List.getD_append _ _ _ _ (by omega),
          List.getD_eq_getElem _ _ (by omega), List.getD_eq_getElem _ _ (by omega)]
      rw [hget]
      exact hrun
  faults hfin ht hb := (hf _).faults hfin ht hb
  lasts hfin ht hlen := (hf _).lasts hfin ht hlen

/-- At the end nothing is taken. -/
theorem scans_next : Scans N 1 0 next next := fun t =>
  { takes := by
      rintro finish ts rest a hfin ht hp
      cases hp
      refine ⟨List.drop_suffix 1 ts, ?_⟩
      rw [List.length_drop]
      omega
    keeps := by
      rintro finish pre v tail a hfin ht hp hv finish' tail'
      obtain ⟨rfl, hdrop⟩ := Prod.mk.inj (Except.ok.inj hp)
      cases pre with
      | nil =>
        have hlen := congrArg List.length hdrop
        simp only [List.nil_append, List.length_drop, List.length_append] at hlen
        omega
      | cons u pre =>
        have hpre : pre ++ tail = v ++ tail := hdrop
        rw [← List.append_cancel_right hpre]
        rfl
    faults := nofun
    lasts := fun _ _ _ => ⟨nofun, rfl⟩ }

/-- A token that has been seen is taken. -/
theorem scansAt_next (ht : t.kind ≠ .finish) : ScansAt t N m 1 next next := by
  refine ⟨?_, ?_, nofun, fun _ _ _ => ⟨nofun, rfl⟩⟩
  · rintro finish ts rest a hfin hts hp
    cases hp
    cases ts with
    | nil =>
      obtain rfl : finish = t := hts
      exact absurd hfin ht
    | cons u ts => exact ⟨List.suffix_cons u ts, le_rfl⟩
  · rintro finish pre v tail a hfin hts hp hv finish' tail'
    obtain ⟨rfl, hdrop⟩ := Prod.mk.inj (Except.ok.inj hp)
    cases pre with
    | nil =>
      cases tail with
      | nil =>
        obtain rfl : finish = t := hts
        exact absurd hfin ht
      | cons u tail =>
        have hlen := congrArg List.length hdrop
        simp only [List.nil_append, List.length_drop, List.length_append, List.length_cons] at hlen
        omega
    | cons u pre =>
      have hpre : pre ++ tail = v ++ tail := hdrop
      rw [← List.append_cancel_right hpre]
      rfl

/-- What follows the token that has been seen takes one too. -/
theorem ScansAt.next {f g : Token → Parser β} (ht : t.kind ≠ .finish)
    (hf : ∀ t, Scans (N - 1) m 1 (f t) (g t)) : ScansAt t N m 1 (next >>= f) (next >>= g) :=
  ((scansAt_next ht).bind hf (by omega)).weaken le_rfl (by omega)

/-- The token that has been seen is taken and found wrong. -/
theorem ScansAt.next_fail {e : ParseError} (ht : t.kind ≠ .finish)
    (he : ∀ finish ts, t ∈ ts → Faulty finish ts e) :
    ScansAt t N m d (Parser.next >>= fun _ => (fail e : Parser β))
      (Parser.next >>= fun _ => fail e) := by
  refine .of_error fun {finish ts} hfin hts => ⟨e, rfl, he finish ts ?_⟩
  cases ts with
  | nil => exact absurd hfin (by rwa [← hts] at ht)
  | cons u ts => exact hts ▸ List.mem_cons_self

theorem expect_eq (kinds : List Kind) :
    expect kinds = peek >>= fun t => if t.kind ∈ kinds then next else refuse kinds := by
  funext finish ts
  have hpeek : (peek >>= fun t => if t.kind ∈ kinds then next else refuse kinds) finish ts =
    (if (ts.headD finish).kind ∈ kinds then next else refuse kinds) finish ts := rfl
  rw [hpeek, expect, Token.check]
  split_ifs <;> rfl

theorem scans_expect {kinds : List Kind} (hk : .finish ∉ kinds) :
    Scans N m 1 (expect kinds) (expect kinds) := by
  rw [expect_eq]
  refine scans_peek (by omega) fun t => .ite (fun ht => ?_) scansAt_refuse
  exact scansAt_next fun h => hk (h ▸ ht)

theorem expect_bind (kinds : List Kind) (f : Token → Parser β) : expect kinds >>= f =
    peek >>= fun t => if t.kind ∈ kinds then next >>= fun _ => f t else refuse kinds := by
  funext finish ts
  have hpeek : (peek >>= fun t => if t.kind ∈ kinds then next >>= fun _ => f t else refuse kinds)
      finish ts = (if (ts.headD finish).kind ∈ kinds then next >>= fun _ => f (ts.headD finish)
        else refuse kinds) finish ts := rfl
  rw [hpeek]
  split_ifs with hk
  · exact bind_of_ok (by rw [expect, Token.check, if_pos hk])
  · exact bind_of_error (by rw [expect, Token.check, if_neg hk])

theorem scans_ident : Scans N m 1 ident ident := (scans_expect (by decide)).map _

theorem skipIf_eq (k : Kind) :
    skipIf k = kind >>= fun k' => if k' = k then next >>= fun _ => Pure.pure () else Pure.pure () := by
  funext finish ts
  have hhead : ts.getD 0 finish = ts.headD finish := by
    cases ts <;> rfl
  show .ok ((), if (ts.headD finish).kind = k then ts.drop 1 else ts) =
    (if (ts.getD 0 finish).kind = k then next >>= fun _ => Pure.pure () else Pure.pure ()) finish ts
  rw [hhead]
  split_ifs <;> rfl

theorem scans_skipIf (k : Kind) : Scans N 1 0 (skipIf k) (skipIf k) := by
  rw [skipIf_eq]
  exact scans_kind (by omega) fun t => .ite (fun _ => scans_next.map _ t) fun _ => scans_pure () t

theorem scans_boundList (done : List String) (hN : N ≤ n) (hn : n ≤ n') :
    Scans N 1 0 (boundList done n) (boundList done n') := by
  induction n generalizing N n' done with
  | zero => exact scans_outOfFuel hN
  | succ n ih =>
    obtain ⟨n', rfl⟩ := Nat.exists_eq_add_one_of_ne_zero (by omega : n' ≠ 0)
    unfold boundList
    refine scans_kind (by omega) fun t => .ite (fun _ => scans_pure _ t) fun _ => ?_
    refine (scans_ident.first fun x => ?_).weaken le_rfl (Nat.zero_le 1) t
    exact (scans_skipIf .add).neither fun _ => ih (x :: done) (by omega) (by omega)

theorem scans_bounds (hN : N ≤ n) (hn : n ≤ n') : Scans N m 1 (bounds n) (bounds n') := by
  unfold bounds
  refine scans_kind (by omega) fun t => .ite (fun hk => ?_) fun _ => ?_
  · refine .next (by rw [hk]; decide) fun _ => ?_
    refine (scans_boundList [] (by omega) hn).second fun bs => ?_
    exact (scans_expect (by decide)).map _
  · exact (scans_expect (by decide)).map _ t

/-- Fields up to the brace, each a label and a value with the sign between them; a label occurs
once. `done` holds those read, last first. -/
def labelled (sign : Kind) (value : Parser α) (done : List (String × α)) :
    Nat → Parser (List (String × α))
  | 0 => fail .outOfFuel
  | n + 1 => do
    if (← kind) = .rbrace then
      let _ ← next
      return done.reverse
    else
      let label ← expect [.ident]
      if done.any (·.1 = label.text) then
        fail (.malformed ⟨some label.line, .duplicateLabel label.text⟩)
      else
        let _ ← expect [sign]
        let a ← value
        skipIf .comma
        labelled sign value ((label.text, a) :: done) n

theorem scans_labelled {sign : Kind} (hsign : .finish ∉ [sign]) (done : List (String × α))
    (hp : Scans N 1 1 p q) (hN : N ≤ n) (hn : n ≤ n') :
    Scans N m 1 (labelled sign p done n) (labelled sign q done n') := by
  induction n generalizing N n' done with
  | zero => exact scans_outOfFuel hN
  | succ n ih =>
    obtain ⟨n', rfl⟩ := Nat.exists_eq_add_one_of_ne_zero (by omega : n' ≠ 0)
    unfold labelled
    refine scans_kind (by omega) fun t => .ite (fun hk => ?_) fun _ => ?_
    · exact (scansAt_next (by rw [hk]; decide)).map _
    · rw [expect_bind, expect_bind]
      -- a label that occurs again is found wrong when it has been taken
      refine scans_peek (by omega) (fun label => .ite (fun hk => ?_) scansAt_refuse) t
      have hident : label.kind = .ident := List.mem_singleton.mp hk
      have hlabel : label.kind ≠ .finish := by rw [hident]; decide
      split_ifs with hdup
      · exact .next_fail hlabel fun _ _ h => .duplicate h hident
      · refine .next hlabel fun _ => (scans_expect hsign).both fun _ => ?_
        refine (hp.mono (by omega)).both fun a => ?_
        refine (scans_skipIf .comma).second fun _ => ?_
        exact ih _ (hp.mono (by omega)) (by omega) (by omega)

end

end Parser

theorem Ty.fieldList_eq (ty : Parser Ty) (done : List (String × Ty)) (n : Nat) :
    fieldList ty done n = Parser.labelled .colon ty done n := by
  induction n generalizing done with
  | zero => rfl
  | succ n ih => simp only [fieldList, Parser.labelled, ih]

theorem Expr.fieldList_eq (expr : Parser Expr) (done : List (String × Expr)) (n : Nat) :
    fieldList expr done n = Parser.labelled .assign expr done n := by
  induction n generalizing done with
  | zero => rfl
  | succ n ih => simp only [fieldList, Parser.labelled, ih]

end TraitCalculus
