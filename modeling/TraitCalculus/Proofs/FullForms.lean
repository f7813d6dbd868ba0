import TraitCalculus.Proofs.Decimals
import TraitCalculus.Proofs.WrittenExpressions

/-! Every expression can be written: with parentheses around all its parts it is read as itself. -/
namespace TraitCalculus

open TraitCalculus.Parser

namespace Ty

mutual

/-- The words of a type with each inner type in parentheses. -/
def full : Ty → List Word
  | name _ x => [(.ident, x)]
  | all _ x bounds body =>
    (.forallWord, "forall") :: (.ident, x) :: boundWords bounds ++ parens body.full
  | arrow _ dom cod => parens dom.full ++ (.arrow, "->") :: parens cod.full
  | app _ fn arg => parens fn.full ++ parens arg.full
  | list _ elem => (.lbracket, "[") :: parens elem.full ++ [(.rbracket, "]")]
  | emptyList => []
  | record _ fields => (.lbrace, "\x7b") :: listed (.rbrace, "\x7d") (fullFields fields)

def fullFields : List (String × Ty) → List (List Word)
  | [] => []
  | (label, t) :: fields => ((.ident, label) :: (.colon, ":") :: parens t.full) :: fullFields fields

end

mutual

/-- A type that has a source form: the labels of a record are distinct, and the type of a list
without elements does not occur. -/
def hasForm : Ty → Bool
  | name .. => true
  | all _ _ _ body => body.hasForm
  | arrow _ dom cod => dom.hasForm && cod.hasForm
  | app _ fn arg => fn.hasForm && arg.hasForm
  | list _ elem => elem.hasForm
  | emptyList => false
  | record _ fields => decide (fields.map (·.1)).Nodup && hasFormFields fields

def hasFormFields : List (String × Ty) → Bool
  | [] => true
  | (_, t) :: fields => t.hasForm && hasFormFields fields

end

theorem fullFields_eq (fs : List (String × Ty)) :
    fullFields fs = fs.map fun f => (.ident, f.1) :: (.colon, ":") :: parens f.2.full :=
  walk_eq_map rfl (fun _ _ => rfl) fs

theorem hasFormFields_iff (fs : List (String × Ty)) :
    hasFormFields fs ↔ ∀ f ∈ fs, f.2.hasForm :=
  walk_eq_true rfl (fun _ _ => rfl) fs

theorem Written.weaken {k k' : Nat} {t : Ty} {ws : List Word} (h : Written k' t ws) (hk : k ≤ k') :
    Written k t ws := by
  induction hk with
  | refl => exact h
  | step _ ih => exact ih h.loosen

/-- The full form is a written form. -/
theorem written_full {t : Ty} (h : t.hasForm) : Written 0 t.unlined t.full := by
  have hparens {t : Ty} {k : Nat} (ht : Written 0 t.unlined t.full) (hk : k ≤ 3) :
      Written k t.unlined (TraitCalculus.parens t.full) := (Written.parens ht).weaken hk
  induction t using Ty.induction with
  | name line x => exact (Written.name x).weaken (by omega)
  | all line x bs body ih => exact .all (hparens (ih h) (by omega))
  | arrow line d c ihd ihc =>
    obtain ⟨hd, hc⟩ := Bool.and_eq_true_iff.mp h
    exact (Written.arrow (hparens (ihd hd) (by omega)) (hparens (ihc hc) (by omega))).weaken
      (by omega)
  | app line f a ihf iha =>
    obtain ⟨hf, ha⟩ := Bool.and_eq_true_iff.mp h
    exact (Written.app (hparens (ihf hf) (by omega)) (hparens (iha ha) (by omega))).weaken
      (by omega)
  | list line t ih => exact (Written.list (hparens (ih h) (by omega))).weaken (by omega)
  | emptyList => cases h
  | record line fs ih =>
    obtain ⟨hlabels, hfs⟩ := Bool.and_eq_true_iff.mp h
    have hlabels := of_decide_eq_true hlabels
    have hfs := (hasFormFields_iff fs).mp hfs
    -- each field with the words of its type
    set gs := fs.map fun f => ((f.1, f.2.unlined), TraitCalculus.parens f.2.full) with hgs
    have hrec : Written 3 (.record none (gs.map (·.1))) ((.lbrace, "\x7b") :: fieldWords gs) := by
      refine .record ?_ ?_
      · rw [hgs, List.map_map]
        exact hlabels
      · intro g hg
        obtain ⟨f, hf, rfl⟩ := List.mem_map.mp hg
        exact hparens (ih f hf (hfs f hf)) (by omega)
    have hty : (Ty.record line fs).unlined = .record none (gs.map (·.1)) := by
      rw [unlined, unlinedFields_eq, hgs, List.map_map]
      rfl
    have hwords : (Ty.record line fs).full = (.lbrace, "\x7b") :: fieldWords gs := by
      rw [full, fullFields_eq, fieldWords, hgs, List.map_map]
      rfl
    rw [hty, hwords]
    exact hrec.weaken (by omega)

end Ty

/-- The words of a parameter's type in parentheses. -/
def Param.full : Param → List Word
  | typed t => parens t.full
  | _ => []

def Param.hasForm : Param → Bool
  | typed t => t.hasForm
  | _ => false

/-- The word of a literal. -/
def Value.word : Value → Word
  | int n => (.number, toString n)
  | text s => (.string, s)
  | bool b => boolWord b

/-- A literal that has a source form: integers have no sign and at most so many digits as can be
read. -/
def Value.hasForm : Value → Bool
  | int n => decide (0 ≤ n) && Text.writable n
  | _ => true

namespace Expr

mutual

/-- The words of an expression with each part, expression or type, in parentheses. -/
def full : Expr → List Word
  | lam _ x p body =>
    (.backslash, "\\") :: (.ident, x) :: (.colon, ":") :: p.full ++ (.dot, ".") :: parens body.full
  | tlam _ x bounds body =>
    (.backslash, "\\") :: (.ident, x) :: boundWords bounds ++ parens body.full
  | cond _ c y z =>
    (.ifWord, "if") :: parens c.full ++ (.thenWord, "then") :: parens y.full
      ++ (.elseWord, "else") :: parens z.full
  | bin _ op l r => parens l.full ++ op.word :: parens r.full
  | un _ op e => op.word :: parens e.full
  | app _ f a => parens f.full ++ parens a.full
  | tapp _ f t => parens f.full ++ (.atSign, "@") :: parens t.full
  | ascribe _ e t => parens e.full ++ (.colon, ":") :: parens t.full
  | proj _ e label => parens e.full ++ [(.dot, "."), (.ident, label)]
  | var _ x => [(.ident, x)]
  | val _ v => [v.word]
  | list _ es => (.lbracket, "[") :: listed (.rbracket, "]") (fullItems es)
  | record _ fs => (.lbrace, "\x7b") :: listed (.rbrace, "\x7d") (fullFields fs)

def fullItems : List Expr → List (List Word)
  | [] => []
  | e :: es => parens e.full :: fullItems es

def fullFields : List (String × Expr) → List (List Word)
  | [] => []
  | (label, e) :: fs => ((.ident, label) :: (.assign, "=") :: parens e.full) :: fullFields fs

end

mutual

/-- An expression that has a source form. No type has been found for its nodes yet, parameters have
types, the labels of a record are distinct, and its types and literals have source forms. -/
def hasForm : Expr → Bool
  | lam n _ p body => n.type.isNone && p.hasForm && body.hasForm
  | tlam n _ _ body => n.type.isNone && body.hasForm
  | cond n c y z => n.type.isNone && c.hasForm && y.hasForm && z.hasForm
  | bin n _ l r => n.type.isNone && l.hasForm && r.hasForm
  | un n _ e => n.type.isNone && e.hasForm
  | app n f a => n.type.isNone && f.hasForm && a.hasForm
  | tapp n f t => n.type.isNone && f.hasForm && t.hasForm
  | ascribe n e t => n.type.isNone && e.hasForm && t.hasForm
  | proj n e _ => n.type.isNone && e.hasForm
  | var n _ => n.type.isNone
  | val n v => n.type.isNone && v.hasForm
  | list n es => n.type.isNone && hasFormItems es
  | record n fs => n.type.isNone && decide (fs.map (·.1)).Nodup && hasFormFields fs

def hasFormItems : List Expr → Bool
  | [] => true
  | e :: es => e.hasForm && hasFormItems es

def hasFormFields : List (String × Expr) → Bool
  | [] => true
  | (_, e) :: fs => e.hasForm && hasFormFields fs

end

theorem fullItems_eq (es : List Expr) : fullItems es = es.map fun e => parens e.full :=
  walk_eq_map rfl (fun _ _ => rfl) es

theorem fullFields_eq (fs : List (String × Expr)) :
    fullFields fs = fs.map fun f => (.ident, f.1) :: (.assign, "=") :: parens f.2.full :=
  walk_eq_map rfl (fun _ _ => rfl) fs

theorem hasFormItems_iff (es : List Expr) : hasFormItems es ↔ ∀ e ∈ es, e.hasForm :=
  walk_eq_true rfl (fun _ _ => rfl) es

theorem hasFormFields_iff (fs : List (String × Expr)) :
    hasFormFields fs ↔ ∀ f ∈ fs, f.2.hasForm :=
  walk_eq_true rfl (fun _ _ => rfl) fs

/-- A phrase that does not end with an annotation can stand at every looser level. -/
theorem Written.weaken {k k' : Nat} {e : Expr} {ws : List Word} (h : Written k' false e ws)
    (hk : k ≤ k') : Written k false e ws := by
  induction hk with
  | refl => exact h
  | @step m _ ih =>
    by_cases h9 : m = 9
    · subst h9
      exact ih h.argument
    · exact ih (h.loosen h9)

theorem unlined_note {n : Note} (h : n.type.isNone) : n.unlined = .blank := by
  rw [Note.unlined, Option.isNone_iff_eq_none.mp h]
  rfl

theorem written_val {v : Value} (h : v.hasForm) : Written 12 false (val .blank v) [v.word] := by
  cases v with
  | int n =>
    obtain ⟨hpos, hlen⟩ := Bool.and_eq_true_iff.mp h
    obtain ⟨m, rfl⟩ := Int.eq_ofNat_of_zero_le (of_decide_eq_true hpos)
    have hm : m < 10 ^ Text.digitLimit := of_decide_eq_true hlen
    exact .int (Text.readInteger_toString hm)
  | text s => exact .text s
  | bool b => exact .bool b

/-- The full form is a written form. -/
theorem written_full {e : Expr} (h : e.hasForm) : Written 0 false e.unlined e.full := by
  have hparens {e : Expr} {k : Nat} (he : Written 0 false e.unlined e.full) (hk : k ≤ 12) :
      Written k false e.unlined (TraitCalculus.parens e.full) := (Written.parens he).weaken hk
  have htype {t : Ty} {k : Nat} (ht : t.hasForm) (hk : k ≤ 3) :
      Ty.Written k t.unlined (TraitCalculus.parens t.full) :=
    (Ty.Written.parens (Ty.written_full ht)).weaken hk
  induction e using Expr.induction with
  | lam n x p body ih =>
    simp only [hasForm, Bool.and_eq_true] at h
    obtain ⟨⟨hn, hp⟩, hb⟩ := h
    rw [unlined, unlined_note hn]
    cases p with
    | typed t => exact .lam (htype hp (by omega)) (hparens (ih hb) (by omega))
    | dictionary => cases hp
    | erased => cases hp
  | tlam n x bs body ih =>
    simp only [hasForm, Bool.and_eq_true] at h
    rw [unlined, unlined_note h.1]
    exact .tlam (hparens (ih h.2) (by omega))
  | cond n c y z ihc ihy ihz =>
    simp only [hasForm, Bool.and_eq_true] at h
    obtain ⟨⟨⟨hn, hc⟩, hy⟩, hz⟩ := h
    rw [unlined, unlined_note hn]
    exact .cond (hparens (ihc hc) (by omega)) (hparens (ihy hy) (by omega))
      (hparens (ihz hz) (by omega))
  | bin n op l r ihl ihr =>
    simp only [hasForm, Bool.and_eq_true] at h
    obtain ⟨⟨hn, hl⟩, hr⟩ := h
    have hlevel : op.level + 1 ≤ 12 := by
      cases op <;> decide
    rw [unlined, unlined_note hn]
    exact (Written.bin op (hparens (ihl hl) (by omega)) (hparens (ihr hr) hlevel)).weaken
      (Nat.zero_le _)
  | un n op e ih =>
    simp only [hasForm, Bool.and_eq_true] at h
    have hlevel : op.level ≤ 12 := by
      cases op <;> decide
    rw [unlined, unlined_note h.1]
    exact (Written.un op (hparens (ih h.2) hlevel)).weaken (Nat.zero_le _)
  | app n f a ihf iha =>
    simp only [hasForm, Bool.and_eq_true] at h
    obtain ⟨⟨hn, hf⟩, ha⟩ := h
    rw [unlined, unlined_note hn]
    exact (Written.app (hparens (ihf hf) (by omega)) (hparens (iha ha) (by omega)) (by simp)).weaken
      (Nat.zero_le _)
  | tapp n f t ih =>
    simp only [hasForm, Bool.and_eq_true] at h
    obtain ⟨⟨hn, hf⟩, ht⟩ := h
    rw [unlined, unlined_note hn]
    exact (Written.tapp (hparens (ih hf) (by omega)) (htype ht (by omega))).weaken (Nat.zero_le _)
  | ascribe n e t ih =>
    simp only [hasForm, Bool.and_eq_true] at h
    obtain ⟨⟨hn, he⟩, ht⟩ := h
    rw [unlined, unlined_note hn]
    have hascribe := Written.ascribe (hparens (ih he) (by omega)) (htype ht (by omega))
    exact (hascribe.argument.loosen (by decide)).weaken (Nat.zero_le _)
  | proj n e label ih =>
    simp only [hasForm, Bool.and_eq_true] at h
    rw [unlined, unlined_note h.1]
    exact (Written.proj label (hparens (ih h.2) (by omega))).weaken (Nat.zero_le _)
  | var n x =>
    rw [unlined, unlined_note h]
    exact (Written.var x).weaken (Nat.zero_le _)
  | val n v =>
    simp only [hasForm, Bool.and_eq_true] at h
    rw [unlined, unlined_note h.1]
    exact (written_val h.2).weaken (Nat.zero_le _)
  | list n es ih =>
    simp only [hasForm, Bool.and_eq_true] at h
    have hes := (hasFormItems_iff es).mp h.2
    set gs := es.map fun e => (e.unlined, TraitCalculus.parens e.full) with hgs
    have hlist : Written 12 false (.list .blank (gs.map (·.1)))
        ((.lbracket, "[") :: listed (.rbracket, "]") (gs.map (·.2))) := by
      refine .list fun g hg => ?_
      obtain ⟨e, he, rfl⟩ := List.mem_map.mp hg
      exact hparens (ih e he (hes e he)) (by omega)
    rw [unlined, unlined_note h.1, unlinedItems_eq, full, fullItems_eq]
    rw [hgs, List.map_map, List.map_map] at hlist
    exact hlist.weaken (Nat.zero_le _)
  | record n fs ih =>
    simp only [hasForm, Bool.and_eq_true] at h
    obtain ⟨⟨hn, hlabels⟩, hfs⟩ := h
    have hlabels := of_decide_eq_true hlabels
    have hfs := (hasFormFields_iff fs).mp hfs
    set gs := fs.map fun f => ((f.1, f.2.unlined), TraitCalculus.parens f.2.full) with hgs
    have hrec : Written 12 false (.record .blank (gs.map (·.1)))
        ((.lbrace, "\x7b") :: fieldWords gs) := by
      refine .record ?_ ?_
      · rw [hgs, List.map_map]
        exact hlabels
      · intro g hg
        obtain ⟨f, hf, rfl⟩ := List.mem_map.mp hg
        exact hparens (ih f hf (hfs f hf)) (by omega)
    rw [unlined, unlined_note hn, unlinedFields_eq, full, fullFields_eq]
    rw [fieldWords, hgs, List.map_map, List.map_map] at hrec
    exact hrec.weaken (Nat.zero_le _)

/-- Every expression with a source form is read from its full form, behind which a closing
parenthesis, a semicolon or nothing follows, and exactly that is left. -/
theorem parse_full {e : Expr} (he : e.hasForm) {ts rest : List Token}
    (hts : ts.map Token.word = e.full)
    (hrest : rest = [] ∨ ∃ t us, rest = t :: us ∧ (t.kind = .rparen ∨ t.kind = .semicolon)) :
    ∃ e', parse (ts ++ rest) = .ok (e', rest) ∧ e'.unlined = e.unlined := by
  refine (written_full he).parse hts ?_
  rcases hrest with rfl | ⟨t, us, rfl, ht⟩
  · show (Token.finishOf (ts ++ [])).kind ∉ continuing 0
    rw [Token.kind_finishOf]
    decide
  · show t.kind ∉ continuing 0
    rcases ht with ht | ht <;> rw [ht] <;> decide

/-- The expression `\x: a -> [Int]. if !x.f then -1: Int else \t impl A + B. f @t [2 * 3, "s"]`,
without lines. -/
def nestedSample : Expr :=
  lam .blank "x" (.typed (.arrow none (.name none "a") (.list none (.name none "Int"))))
    (cond .blank (un .blank .not (proj .blank (var .blank "x") "f"))
      (ascribe .blank (un .blank .neg (val .blank (.int 1))) (.name none "Int"))
      (tlam .blank "t" ["A", "B"]
        (app .blank (tapp .blank (var .blank "f") (.name none "t"))
          (list .blank [bin .blank .mul (val .blank (.int 2)) (val .blank (.int 3)),
            val .blank (.text "s")]))))

theorem parse_full_nestedSample :
    nestedSample.hasForm ∧ ∃ e',
      parse ((nestedSample.full.map fun w => ⟨w.1, w.2, 1, 1⟩) ++ [⟨.rparen, ")", 1, 1⟩]) =
        .ok (e', [⟨.rparen, ")", 1, 1⟩]) ∧ e'.unlined = nestedSample.unlined := by
  have hform : nestedSample.hasForm := by decide +kernel
  refine ⟨hform, parse_full hform ?_ (.inr ⟨_, [], rfl, .inl rfl⟩)⟩
  rw [List.map_map]
  exact List.map_id _

end Expr

end TraitCalculus
