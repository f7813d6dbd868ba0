import TraitCalculus.Expr.Printer
import TraitCalculus.Proofs.FullForms

/-! Printed forms as lists of words and blanks. The printer leaves out some parentheses that reading
needs; where it leaves out none, the words of the printed form are a written form. -/
namespace TraitCalculus

/-- A printed text is made of words and single blanks. -/
inductive Mark where
  | gap
  | word (w : Word)

/-- A word as it is printed. Texts stand in double quotes, as they are. -/
def Word.spelling (w : Word) : List Char :=
  if w.1 = .string then '"' :: w.2.toList ++ ['"'] else w.2.toList

def Mark.chars : Mark → List Char
  | gap => [' ']
  | word w => w.spelling

def Mark.word? : Mark → Option Word
  | gap => none
  | word w => some w

/-- The text of a list of marks. -/
def textOf (ms : List Mark) : List Char := ms.flatMap Mark.chars

/-- The words in a list of marks. -/
def wordsOf (ms : List Mark) : List Word := ms.filterMap Mark.word?

section

variable (m : Mark) (ms ms' : List Mark)

@[simp] theorem textOf_nil : textOf [] = [] := rfl

@[simp] theorem textOf_cons : textOf (m :: ms) = m.chars ++ textOf ms := rfl

@[simp] theorem textOf_append : textOf (ms ++ ms') = textOf ms ++ textOf ms' := List.flatMap_append

@[simp] theorem wordsOf_nil : wordsOf [] = [] := rfl

@[simp] theorem wordsOf_gap : wordsOf (.gap :: ms) = wordsOf ms := rfl

@[simp] theorem wordsOf_word (w : Word) : wordsOf (.word w :: ms) = w :: wordsOf ms := rfl

@[simp] theorem wordsOf_append : wordsOf (ms ++ ms') = wordsOf ms ++ wordsOf ms' :=
  List.filterMap_append

end

theorem textOf_intercalate (sep : List Mark) (mss : List (List Mark)) :
    textOf (sep.intercalate mss) = (textOf sep).intercalate (mss.map textOf) := by
  match mss with
  | [] => rfl
  | [ms] => simp
  | ms :: ms' :: mss =>
    have hrest := textOf_intercalate sep (ms' :: mss)
    simp only [List.map_cons, List.intercalate_cons_cons, textOf_append] at hrest ⊢
    rw [hrest]

/-- Puts parentheses around marks if `b` holds. -/
def wrapIf (b : Bool) (ms : List Mark) : List Mark :=
  if b then .word (.lparen, "(") :: ms ++ [.word (.rparen, ")")] else ms

theorem textOf_wrapIf (b : Bool) {ms : List Mark} {s : String} (h : textOf ms = s.toList) :
    textOf (wrapIf b ms) = (parenIf b s).toList := by
  cases b with
  | false => exact h
  | true => simp [wrapIf, parenIf, h, Mark.chars, Word.spelling]

theorem wordsOf_wrapIf (b : Bool) (ms : List Mark) :
    wordsOf (wrapIf b ms) = if b then parens (wordsOf ms) else wordsOf ms := by
  cases b with
  | false => rfl
  | true => simp [wrapIf, parens]

/-- What stands between the items of a list. -/
def commaGap : List Mark := [.word (.comma, ","), .gap]

theorem wordsOf_listed (close : Word) (mss : List (List Mark)) :
    wordsOf (commaGap.intercalate mss ++ [.word close]) = listed close (mss.map wordsOf) := by
  have hmore : ∀ mss : List (List Mark), mss ≠ [] →
      (.comma, ",") :: wordsOf (commaGap.intercalate mss ++ [.word close]) =
        listedMore close (mss.map wordsOf) := by
    intro mss
    induction mss with
    | nil => exact fun h => absurd rfl h
    | cons ms mss ih =>
      intro _
      cases mss with
      | nil => simp [listedMore]
      | cons ms' mss =>
        rw [List.map_cons, listedMore, ← ih (List.cons_ne_nil _ _), List.intercalate_cons_cons]
        simp [commaGap]
  cases mss with
  | nil => rfl
  | cons ms mss =>
    rw [List.map_cons, listed]
    cases mss with
    | nil => simp [listedMore]
    | cons ms' mss =>
      rw [← hmore _ (List.cons_ne_nil _ _), List.intercalate_cons_cons]
      simp [commaGap]

/-- Trait bounds behind a binder, nothing if there are none. -/
def boundScript : List String → List Mark
  | [] => []
  | bs => .gap :: .word (.implWord, "impl") :: .gap ::
      [.gap, .word (.add, "+"), .gap].intercalate (bs.map fun b => [.word (.ident, b)])

theorem textOf_boundScript (bs : List String) : textOf (boundScript bs) = (renderBounds bs).toList := by
  cases bs with
  | nil => rfl
  | cons b bs =>
    have hname : (textOf ∘ fun b => [Mark.word (.ident, b)]) = String.toList := by
      funext b
      exact List.append_nil _
    simp only [boundScript, renderBounds, textOf_cons, textOf_intercalate, String.toList_append,
      String.toList_intercalate, List.map_map, hname]
    rfl

theorem wordsOf_boundScript (bs : List String) :
    wordsOf (boundScript bs) ++ [(.dot, ".")] = boundWords bs := by
  have hnames (bs : List String) : wordsOf ([.gap, .word (.add, "+"), .gap].intercalate
      (bs.map fun b => [Mark.word (.ident, b)])) = plusNames bs := by
    induction bs with
    | nil => rfl
    | cons b bs ih =>
      cases bs with
      | nil => rfl
      | cons c bs =>
        rw [List.map_cons] at ih
        rw [List.map_cons, List.map_cons, List.intercalate_cons_cons, wordsOf_append, ih]
        rfl
  cases bs with
  | nil => rfl
  | cons b bs =>
    rw [boundScript, wordsOf_gap, wordsOf_word, wordsOf_gap, hnames]
    · rfl
    · exact List.cons_ne_nil b bs

namespace Ty

mutual

/-- The marks of a printed type. -/
def script : Ty → List Mark
  | name _ x => [.word (.ident, x)]
  | all _ x bounds body =>
    .word (.forallWord, "forall") :: .gap :: .word (.ident, x) :: boundScript bounds
      ++ .word (.dot, ".") :: .gap :: body.script
  | arrow _ dom cod =>
    wrapIf (dom.level ≤ 1) dom.script ++ .gap :: .word (.arrow, "->") :: .gap ::
      wrapIf (cod.level < 1) cod.script
  | app _ fn arg =>
    wrapIf (fn.level < 2) fn.script ++ .gap :: wrapIf (arg.level < 2) arg.script
  | list _ elem => .word (.lbracket, "[") :: elem.script ++ [.word (.rbracket, "]")]
  | emptyList => [.word (.lbracket, "["), .word (.ident, "None"), .word (.rbracket, "]")]
  | record _ fields =>
    .word (.lbrace, "\x7b") :: commaGap.intercalate (scriptFields fields)
      ++ [.word (.rbrace, "\x7d")]

def scriptFields : List (String × Ty) → List (List Mark)
  | [] => []
  | (label, t) :: fields =>
    (.word (.ident, label) :: .word (.colon, ":") :: .gap :: t.script) :: scriptFields fields

end

mutual

/-- The pairs of parentheses that are left out of a printed type: an application that is an argument
stands without them. -/
def lost : Ty → Nat
  | name .. => 0
  | all _ _ _ body => body.lost
  | arrow _ dom cod => dom.lost + cod.lost
  | app _ fn arg => fn.lost + arg.lost + if arg.level = 2 then 1 else 0
  | list _ elem => elem.lost
  | emptyList => 0
  | record _ fields => lostFields fields

def lostFields : List (String × Ty) → Nat
  | [] => 0
  | (_, t) :: fields => t.lost + lostFields fields

end

theorem scriptFields_eq (fs : List (String × Ty)) : scriptFields fs = fs.map fun f =>
    .word (.ident, f.1) :: .word (.colon, ":") :: .gap :: f.2.script :=
  walk_eq_map rfl (fun _ _ => rfl) fs

theorem renderFields_eq (fs : List (String × Ty)) :
    renderFields fs = fs.map fun f => f.1 ++ ": " ++ f.2.render :=
  walk_eq_map rfl (fun _ _ => rfl) fs

theorem lostFields_eq (fs : List (String × Ty)) : lostFields fs = (fs.map (·.2.lost)).sum :=
  walk_eq_sum rfl (fun _ _ => rfl) fs

theorem lostFields_eq_zero {fs : List (String × Ty)} :
    lostFields fs = 0 ↔ ∀ f ∈ fs, f.2.lost = 0 := by
  rw [lostFields_eq, List.sum_eq_zero_iff, List.forall_mem_map]

theorem textOf_script (t : Ty) : textOf t.script = t.render.toList := by
  induction t using Ty.induction with
  | name line x => simp [script, render, Mark.chars, Word.spelling]
  | all line x bs body ih =>
    simp [script, render, Mark.chars, Word.spelling, ih, textOf_boundScript]
  | arrow line d c ihd ihc =>
    simp [script, render, Mark.chars, Word.spelling, textOf_wrapIf _ ihd, textOf_wrapIf _ ihc]
  | app line f a ihf iha =>
    simp [script, render, Mark.chars, textOf_wrapIf _ ihf, textOf_wrapIf _ iha]
  | list line t ih => simp [script, render, Mark.chars, Word.spelling, ih]
  | emptyList => rfl
  | record line fs ih =>
    have hfs : (scriptFields fs).map textOf = (renderFields fs).map String.toList := by
      rw [scriptFields_eq, renderFields_eq, List.map_map, List.map_map]
      refine List.map_congr_left fun f hf => ?_
      simp [Mark.chars, Word.spelling, ih f hf]
    simp [script, render, Mark.chars, Word.spelling, textOf_intercalate, hfs, commaGap]

/-- Types next to each other are applications, grouped to the left. -/
def grouped : List Ty → Ty
  | [] => emptyList
  | t :: ts => ts.foldl (app none) t

mutual

/-- The members of the chain of applications at the top of a type, in the order they are written.
Inside of each, all chains are grouped to the left. -/
def chain : Ty → List Ty
  | name _ x => [name none x]
  | all _ x bounds body => [all none x bounds (grouped body.chain)]
  | arrow _ dom cod => [arrow none (grouped dom.chain) (grouped cod.chain)]
  | app _ fn arg => fn.chain ++ arg.chain
  | list _ elem => [list none (grouped elem.chain)]
  | emptyList => [emptyList]
  | record _ fields => [record none (chainFields fields)]

def chainFields : List (String × Ty) → List (String × Ty)
  | [] => []
  | (label, t) :: fields => (label, grouped t.chain) :: chainFields fields

end

/-- The type without lines, with every chain of applications grouped to the left. -/
def regrouped (t : Ty) : Ty := grouped t.chain

theorem chainFields_eq (fs : List (String × Ty)) :
    chainFields fs = fs.map fun f => (f.1, f.2.regrouped) :=
  walk_eq_map rfl (fun _ _ => rfl) fs

theorem chain_ne_nil (t : Ty) : t.chain ≠ [] := by
  induction t using Ty.induction with
  | app line f a ihf iha => exact List.append_ne_nil_of_left_ne_nil ihf _
  | _ => exact List.cons_ne_nil _ _

theorem chain_of_level {t : Ty} (h : t.level ≠ 2) : t.chain = [t.regrouped] := by
  cases t with
  | app line f a => exact absurd rfl h
  | _ => rfl

theorem regrouped_app (line : Option Nat) (f a : Ty) :
    (app line f a).regrouped = a.chain.foldl (app none) f.regrouped := by
  have hne := f.chain_ne_nil
  rw [regrouped, regrouped, chain]
  cases hf : f.chain with
  | nil => exact absurd hf hne
  | cons t ts => exact List.foldl_append

/-- A part in its place: in parentheses, or at a level that is tight enough. -/
theorem Written.part {t u : Ty} {k : Nat} {b : Bool} (h : Written t.level u (wordsOf t.script))
    (hk : k ≤ 3) (hb : b = false → k ≤ t.level) : Written k u (wordsOf (wrapIf b t.script)) := by
  have hloose : Written 0 u (wordsOf t.script) := h.weaken (Nat.zero_le _)
  rw [wordsOf_wrapIf]
  cases b with
  | false => exact h.weaken (hb rfl)
  | true => exact hloose.parens.weaken hk

/-- The words of a printed type, alone and behind an application: there its members are arguments,
one after the other. -/
def Regroups (t : Ty) : Prop :=
  Written t.level t.regrouped (wordsOf t.script) ∧ ∀ g ws, Written 2 g ws →
    Written 2 (t.chain.foldl (app none) g) (ws ++ wordsOf (wrapIf (t.level < 2) t.script))

/-- A type that is no application is one argument. -/
theorem regroups_of_level {t : Ty} (ht : t.level ≠ 2)
    (h : Written t.level t.regrouped (wordsOf t.script)) : t.Regroups := by
  refine ⟨h, fun g ws hg => ?_⟩
  rw [chain_of_level ht]
  refine .app hg (h.part le_rfl fun hb => ?_)
  have hge := of_decide_eq_false hb
  omega

/-- A printed type is a written form of the type with all chains grouped to the left. -/
theorem regroups {t : Ty} (hform : t.hasForm) : t.Regroups := by
  induction t using Ty.induction with
  | name line x => exact regroups_of_level (by simp [level]) (.name x)
  | all line x bs body ih =>
    have hbody := (ih hform).1.weaken (Nat.zero_le _)
    have hwords : wordsOf (Ty.all line x bs body).script =
        (.forallWord, "forall") :: (.ident, x) :: boundWords bs ++ wordsOf body.script := by
      rw [← wordsOf_boundScript]
      simp [script]
    refine regroups_of_level (by simp [level]) ?_
    rw [hwords]
    exact .all hbody
  | arrow line d c ihd ihc =>
    obtain ⟨hd, hc⟩ := Bool.and_eq_true_iff.mp hform
    have hdom := (ihd hd).1.part (k := 2) (b := decide (d.level ≤ 1)) (by omega)
      fun hb => Nat.lt_of_not_le (of_decide_eq_false hb)
    have hcod := (ihc hc).1.part (k := 1) (b := decide (c.level < 1)) (by omega)
      fun hb => Nat.le_of_not_lt (of_decide_eq_false hb)
    refine regroups_of_level (by simp [level]) ?_
    rw [script, wordsOf_append]
    exact .arrow hdom hcod
  | app line f a ihf iha =>
    obtain ⟨hf, ha⟩ := Bool.and_eq_true_iff.mp hform
    have hfn := (ihf hf).1.part (k := 2) (b := decide (f.level < 2)) (by omega)
      fun hb => Nat.le_of_not_lt (of_decide_eq_false hb)
    have hwords : wordsOf (Ty.app line f a).script =
        wordsOf (wrapIf (f.level < 2) f.script) ++ wordsOf (wrapIf (a.level < 2) a.script) := by
      rw [script, wordsOf_append, wordsOf_gap]
    refine ⟨?_, fun g ws hg => ?_⟩
    · rw [hwords, regrouped_app]
      exact (iha ha).2 _ _ hfn
    · have hargs := (iha ha).2 _ _ ((ihf hf).2 g ws hg)
      rw [List.append_assoc, ← hwords, ← List.foldl_append] at hargs
      exact hargs
  | list line t ih =>
    have helem := (ih hform).1.weaken (Nat.zero_le _)
    refine regroups_of_level (by simp [level]) ?_
    simp only [script, List.cons_append, wordsOf_word, wordsOf_append, wordsOf_nil]
    exact .list helem
  | emptyList => cases hform
  | record line fs ih =>
    obtain ⟨hlabels, hfs⟩ := Bool.and_eq_true_iff.mp hform
    have hlabels := of_decide_eq_true hlabels
    have hfs := (hasFormFields_iff fs).mp hfs
    set gs := fs.map fun f => ((f.1, f.2.regrouped), wordsOf f.2.script) with hgs
    have hrec : Written 3 (.record none (gs.map (·.1))) ((.lbrace, "\x7b") :: fieldWords gs) := by
      refine .record ?_ ?_
      · rw [hgs, List.map_map]
        exact hlabels
      · intro g hg
        obtain ⟨f, hf, rfl⟩ := List.mem_map.mp hg
        exact (ih f hf (hfs f hf)).1.weaken (Nat.zero_le _)
    have hty : (Ty.record line fs).regrouped = .record none (gs.map (·.1)) := by
      rw [hgs, List.map_map]
      exact congrArg (Ty.record none) (chainFields_eq fs)
    have hwords : wordsOf (Ty.record line fs).script = (.lbrace, "\x7b") :: fieldWords gs := by
      rw [script, List.cons_append, wordsOf_word, wordsOf_listed, fieldWords, scriptFields_eq, hgs,
        List.map_map, List.map_map]
      rfl
    refine regroups_of_level (by simp [level]) ?_
    rw [hty, hwords]
    exact hrec

/-- A type that lost no parentheses has its chains grouped to the left. -/
theorem regrouped_of_lost {t : Ty} (h : t.lost = 0) : t.regrouped = t.unlined := by
  induction t using Ty.induction with
  | name | emptyList => rfl
  | all line x bs body ih => exact congrArg (all none x bs) (ih h)
  | arrow line d c ihd ihc =>
    obtain ⟨hd, hc⟩ := Nat.add_eq_zero_iff.mp h
    exact congrArg₂ (arrow none) (ihd hd) (ihc hc)
  | app line f a ihf iha =>
    simp only [lost, Nat.add_eq_zero_iff, ite_eq_right_iff, one_ne_zero, imp_false] at h
    obtain ⟨⟨hf, ha⟩, hlevel⟩ := h
    rw [regrouped_app, chain_of_level hlevel]
    exact congrArg₂ (app none) (ihf hf) (iha ha)
  | list line t ih => exact congrArg (list none) (ih h)
  | record line fs ih =>
    have hlost := lostFields_eq_zero.mp h
    have hfields : chainFields fs = unlinedFields fs := by
      rw [chainFields_eq, unlinedFields_eq]
      exact List.map_congr_left fun f hf => Prod.ext rfl (ih f hf (hlost f hf))
    exact congrArg (record none) hfields

/-- A type that lost no parentheses is written with the words of its printed form. -/
theorem written_script {t : Ty} (hform : t.hasForm) (hlost : t.lost = 0) :
    Written t.level t.unlined (wordsOf t.script) :=
  regrouped_of_lost hlost ▸ (regroups hform).1

end Ty

/-- The type of a parameter behind its name. -/
def Param.script : Param → List Mark
  | typed t => .word (.colon, ":") :: .gap :: t.script
  | dictionary => [.word (.colon, ":"), .gap, .word (.mult, "*")]
  | erased => []

theorem Param.textOf_script (p : Param) : textOf p.script = p.render.toList := by
  cases p with
  | typed t => simp [script, render, Mark.chars, Word.spelling, Ty.textOf_script]
  | dictionary => rfl
  | erased => rfl

def Param.lost : Param → Nat
  | typed t => t.lost
  | _ => 0

theorem Value.spelling_word (v : Value) : v.word.spelling = v.render.toList := by
  cases v with
  | int n => rfl
  | text s => simp [word, render, Word.spelling]
  | bool b => cases b <;> rfl

theorem BinOp.spelling_word (op : BinOp) : op.word.spelling = op.symbol.toList := by
  cases op <;> rfl

theorem BinOp.level_bounds (op : BinOp) : 2 ≤ op.level ∧ op.level ≤ 7 := by
  cases op <;> decide

theorem UnOp.level_bounds (op : UnOp) : 2 ≤ op.level ∧ op.level ≤ 8 := by
  cases op <;> decide

theorem UnOp.spelling_word (op : UnOp) : op.word.spelling = op.symbol.toList := by
  cases op <;> rfl

namespace Expr

mutual

/-- The marks of a printed expression. -/
def script : Expr → List Mark
  | lam _ x p body =>
    .word (.backslash, "\\") :: .word (.ident, x) :: p.script
      ++ .word (.dot, ".") :: .gap :: body.script
  | tlam _ x bounds body =>
    .word (.backslash, "\\") :: .word (.ident, x) :: boundScript bounds
      ++ .word (.dot, ".") :: .gap :: body.script
  | cond _ c y z =>
    .word (.ifWord, "if") :: .gap :: wrapIf (c.level < 1) c.script
      ++ .gap :: .word (.thenWord, "then") :: .gap :: wrapIf (y.level < 1) y.script
      ++ .gap :: .word (.elseWord, "else") :: .gap :: wrapIf (z.level < 1) z.script
  | bin _ op l r =>
    wrapIf (l.level < op.level) l.script
      ++ .gap :: .word op.word :: .gap :: wrapIf (r.level < op.level) r.script
  | un _ op e => .word op.word :: wrapIf (e.level < op.level) e.script
  | app _ f a =>
    wrapIf (f.level < 9) f.script ++ .gap :: wrapIf (a.isApplication || a.level < 9) a.script
  | tapp _ f t => wrapIf (f.level < 9) f.script ++ .gap :: .word (.atSign, "@") :: t.script
  | ascribe _ e t => wrapIf (e.level < 9) e.script ++ .word (.colon, ":") :: .gap :: t.script
  | proj _ e label =>
    wrapIf (e.level < 10) e.script ++ [.word (.dot, "."), .word (.ident, label)]
  | var _ x => [.word (.ident, x)]
  | val _ v => [.word v.word]
  | list _ es =>
    .word (.lbracket, "[") :: commaGap.intercalate (scriptItems es) ++ [.word (.rbracket, "]")]
  | record _ fs =>
    .word (.lbrace, "\x7b") :: commaGap.intercalate (scriptFields fs) ++ [.word (.rbrace, "\x7d")]

def scriptItems : List Expr → List (List Mark)
  | [] => []
  | e :: es => e.script :: scriptItems es

def scriptFields : List (String × Expr) → List (List Mark)
  | [] => []
  | (label, e) :: fs =>
    (.word (.ident, label) :: .gap :: .word (.assign, "=") :: .gap :: e.script) :: scriptFields fs

end

/-- The level of the parser that reads an expression without parentheses. -/
def rank : Expr → Nat
  | lam .. | tlam .. | cond .. => 0
  | bin _ op .. => op.level
  | un _ op .. => op.level
  | app .. | tapp .. => 9
  | ascribe .. => 10
  | proj .. => 11
  | _ => 12

def isAscription : Expr → Bool
  | ascribe .. => true
  | _ => false

/-- The printed form ends with the type of an annotation. -/
def endsOpen : Expr → Bool
  | ascribe .. => true
  | app _ _ a => a.isAscription
  | _ => false

/-- A literal, or a field of one. -/
def isLiteralPath : Expr → Bool
  | val .. => true
  | proj _ e _ => e.isLiteralPath
  | _ => false

/-- The printed form starts with a literal. -/
def startsLiteral : Expr → Bool
  | ascribe _ e _ => e.isLiteralPath
  | e => e.isLiteralPath

mutual

/-- The pairs of parentheses that are left out of a printed expression: around a right operand of the
operator's own level, around a type argument that does not stand alone, around an application or
annotation that is annotated again, and behind an annotation whose type the next argument would
continue. -/
def lost : Expr → Nat
  | lam _ _ p body => p.lost + body.lost
  | tlam _ _ _ body => body.lost
  | cond _ c y z => c.lost + y.lost + z.lost
  | bin _ op l r => l.lost + r.lost + if r.level = op.level then 1 else 0
  | un _ _ e => e.lost
  | app _ f a => f.lost + a.lost + if f.endsOpen && !a.startsLiteral then 1 else 0
  | tapp _ f t => f.lost + t.lost + if t.level < 3 then 1 else 0
  | ascribe _ e t => e.lost + t.lost + if e.level = 9 then 1 else 0
  | proj _ e _ => e.lost
  | var .. => 0
  | val .. => 0
  | list _ es => lostItems es
  | record _ fs => lostFields fs

def lostItems : List Expr → Nat
  | [] => 0
  | e :: es => e.lost + lostItems es

def lostFields : List (String × Expr) → Nat
  | [] => 0
  | (_, e) :: fs => e.lost + lostFields fs

end

theorem scriptItems_eq (es : List Expr) : scriptItems es = es.map script :=
  walk_eq_map rfl (fun _ _ => rfl) es

theorem scriptFields_eq (fs : List (String × Expr)) : scriptFields fs = fs.map fun f =>
    .word (.ident, f.1) :: .gap :: .word (.assign, "=") :: .gap :: f.2.script :=
  walk_eq_map rfl (fun _ _ => rfl) fs

theorem renderItems_eq (es : List Expr) : renderItems es = es.map render :=
  walk_eq_map rfl (fun _ _ => rfl) es

theorem renderFields_eq (fs : List (String × Expr)) :
    renderFields fs = fs.map fun f => f.1 ++ " = " ++ f.2.render :=
  walk_eq_map rfl (fun _ _ => rfl) fs

theorem lostItems_eq (es : List Expr) : lostItems es = (es.map lost).sum :=
  walk_eq_sum rfl (fun _ _ => rfl) es

theorem lostFields_eq (fs : List (String × Expr)) : lostFields fs = (fs.map (·.2.lost)).sum :=
  walk_eq_sum rfl (fun _ _ => rfl) fs

theorem lostItems_eq_zero {es : List Expr} : lostItems es = 0 ↔ ∀ e ∈ es, e.lost = 0 := by
  rw [lostItems_eq, List.sum_eq_zero_iff, List.forall_mem_map]

theorem lostFields_eq_zero {fs : List (String × Expr)} :
    lostFields fs = 0 ↔ ∀ f ∈ fs, f.2.lost = 0 := by
  rw [lostFields_eq, List.sum_eq_zero_iff, List.forall_mem_map]

/-- The marks make the printed text. -/
theorem textOf_script (e : Expr) : textOf e.script = e.render.toList := by
  induction e using Expr.induction with
  | lam n x p body ih =>
    simp [script, render, Mark.chars, Word.spelling, ih, Param.textOf_script]
  | tlam n x bs body ih =>
    simp [script, render, Mark.chars, Word.spelling, ih, textOf_boundScript]
  | cond n c y z ihc ihy ihz =>
    simp [script, render, Mark.chars, Word.spelling, textOf_wrapIf _ ihc, textOf_wrapIf _ ihy,
      textOf_wrapIf _ ihz]
  | bin n op l r ihl ihr =>
    simp [script, render, Mark.chars, BinOp.spelling_word, textOf_wrapIf _ ihl, textOf_wrapIf _ ihr]
  | un n op e ih => simp [script, render, Mark.chars, UnOp.spelling_word, textOf_wrapIf _ ih]
  | app n f a ihf iha =>
    simp [script, render, Mark.chars, textOf_wrapIf _ ihf, textOf_wrapIf _ iha]
  | tapp n f t ih | ascribe n e t ih =>
    simp [script, render, Mark.chars, Word.spelling, textOf_wrapIf _ ih, Ty.textOf_script]
  | proj n e label ih => simp [script, render, Mark.chars, Word.spelling, textOf_wrapIf _ ih]
  | var n x => simp [script, render, Mark.chars, Word.spelling]
  | val n v => simp [script, render, Mark.chars, Value.spelling_word]
  | list n es ih =>
    have hes : (scriptItems es).map textOf = (renderItems es).map String.toList := by
      rw [scriptItems_eq, renderItems_eq, List.map_map, List.map_map]
      exact List.map_congr_left ih
    simp [script, render, Mark.chars, Word.spelling, textOf_intercalate, hes, commaGap]
  | record n fs ih =>
    have hfs : (scriptFields fs).map textOf = (renderFields fs).map String.toList := by
      rw [scriptFields_eq, renderFields_eq, List.map_map, List.map_map]
      refine List.map_congr_left fun f hf => ?_
      simp [Mark.chars, Word.spelling, ih f hf]
    simp [script, render, Mark.chars, Word.spelling, textOf_intercalate, hfs, commaGap]

/-- Up to applications, the printer and the parser have the same levels. -/
theorem level_lt_iff {e : Expr} {k : Nat} (hk : 2 ≤ k) (hk' : k ≤ 9) : e.level < k ↔ e.rank < k := by
  cases e with
  | lam n x p body | tlam n x bs body | bin n op l r | un n op e => exact Iff.rfl
  | _ =>
    dsimp only [level, rank]
    omega

theorem level_lt_ten_iff {e : Expr} : e.level < 10 ↔ e.rank < 11 := by
  cases e with
  | bin n op l r | un n op e =>
    have := op.level_bounds
    dsimp only [level, rank]
    omega
  | _ => simp [level, rank]

theorem rank_of_endsOpen {e : Expr} (h : e.endsOpen) :
    e.rank = 9 ∨ e.rank = 10 ∧ e.isAscription := by
  cases e with
  | app n f a => exact .inl rfl
  | ascribe n e t => exact .inr ⟨rfl, rfl⟩
  | _ => cases h

/-- An argument that is printed without parentheses can be read as one. -/
theorem rank_of_argument {a : Expr} (h : (a.isApplication || decide (a.level < 9)) = false) :
    10 ≤ a.rank := by
  obtain ⟨happ, hlevel⟩ := Bool.or_eq_false_iff.mp h
  have hlevel := of_decide_eq_false hlevel
  rw [level_lt_iff (by omega) le_rfl] at hlevel
  cases a with
  | app n f a => cases happ
  | tapp n f t => cases happ
  | bin n op l r | un n op e =>
    exact absurd (by have := op.level_bounds; dsimp only [rank]; omega) hlevel
  | lam n x p body | tlam n x bs body | cond n c y z => exact absurd (Nat.zero_lt_succ _) hlevel
  | _ => simp [rank]

/-- At level 9 and above it matters that the words end with a type. -/
theorem Written.lower {e e' : Expr} {k : Nat} {ws : List Word}
    (h : Written e.rank e.endsOpen e' ws) (hk : k ≤ e.rank) :
    Written k (decide (9 ≤ k) && e.endsOpen) e' ws := by
  cases hopen : e.endsOpen with
  | false =>
    rw [Bool.and_false]
    rw [hopen] at h
    exact h.weaken hk
  | true =>
    rw [Bool.and_true]
    rw [hopen] at h
    have h9 : Written 9 true e' ws := by
      rcases rank_of_endsOpen hopen with hr | ⟨hr, -⟩
      · exact hr ▸ h
      · exact (hr ▸ h : Written 10 true e' ws).argument
    by_cases hk8 : k ≤ 8
    · rw [decide_eq_false (by omega)]
      exact (h9.loosen (by decide)).weaken hk8
    · rw [decide_eq_true (by omega)]
      rcases rank_of_endsOpen hopen with hr | ⟨hr, -⟩
      · obtain rfl : k = 9 := by omega
        exact h9
      · obtain rfl | rfl : k = 9 ∨ k = 10 := by omega
        · exact h9
        · exact hr ▸ h

/-- A part in its place: in parentheses, or at a level that is tight enough. -/
theorem Written.part {e : Expr} {k : Nat} {b : Bool}
    (h : Written e.rank e.endsOpen e.unlined (wordsOf e.script)) (hk : k ≤ 12)
    (hb : b = false → k ≤ e.rank) :
    Written k (!b && (decide (9 ≤ k) && e.endsOpen)) e.unlined (wordsOf (wrapIf b e.script)) := by
  have hloose : Written 0 false e.unlined (wordsOf e.script) := h.lower (Nat.zero_le _)
  rw [wordsOf_wrapIf]
  cases b with
  | false => exact h.lower (hb rfl)
  | true => exact hloose.parens.weaken hk

/-- A part whose place is no function's or argument's. -/
theorem Written.operand {e : Expr} {k : Nat} {b : Bool}
    (h : Written e.rank e.endsOpen e.unlined (wordsOf e.script)) (hk : k ≤ 8 ∨ k = 11)
    (hb : b = false → k ≤ e.rank) : Written k false e.unlined (wordsOf (wrapIf b e.script)) := by
  have hpart := h.part (by omega) hb
  have hclosed : (!b && (decide (9 ≤ k) && e.endsOpen)) = false := by
    rcases hk with hk | rfl
    · rw [decide_eq_false (by omega), Bool.false_and, Bool.and_false]
    · by_contra hopen
      simp only [Bool.not_eq_false, Bool.and_eq_true, Bool.not_eq_true'] at hopen
      have hrank := hb hopen.1
      rcases rank_of_endsOpen hopen.2.2 with hr | ⟨hr, -⟩ <;> omega
  rwa [hclosed] at hpart

theorem level_of_isLiteralPath {e : Expr} (h : e.isLiteralPath) : 10 ≤ e.level := by
  cases e with
  | val n v => exact Nat.le_succ 10
  | proj n e label => exact le_rfl
  | _ => cases h

/-- A literal at the front is no start of a type. -/
theorem head_of_isLiteralPath {e : Expr} (h : e.isLiteralPath) :
    ∃ w ws, wordsOf e.script = w :: ws ∧ w.1 ∉ Ty.startKinds := by
  induction e using Expr.induction with
  | val n v =>
    refine ⟨v.word, [], rfl, ?_⟩
    cases v with
    | bool b => cases b <;> decide
    | _ => simp [Value.word, Ty.startKinds]
  | proj n e label ih =>
    obtain ⟨w, ws, hws, hw⟩ := ih h
    have hlevel : ¬e.level < 10 := Nat.not_lt.mpr (level_of_isLiteralPath h)
    refine ⟨w, ws ++ [(.dot, "."), (.ident, label)], ?_, hw⟩
    simp [script, wordsOf_wrapIf, hlevel, hws]
  | _ => cases h

theorem head_of_startsLiteral {a : Expr} (h : a.startsLiteral) :
    ∃ w ws, wordsOf (wrapIf (a.isApplication || a.level < 9) a.script) = w :: ws ∧
      w.1 ∉ Ty.startKinds := by
  cases a with
  | ascribe n e t =>
    obtain ⟨w, ws, hws, hw⟩ := head_of_isLiteralPath h
    have hlevel : ¬e.level < 9 := by
      have := level_of_isLiteralPath h
      omega
    refine ⟨w, ws ++ (.colon, ":") :: wordsOf t.script, ?_, hw⟩
    have hbare : wordsOf (wrapIf false (ascribe n e t).script) =
        w :: ws ++ (.colon, ":") :: wordsOf t.script := by
      simp [script, wordsOf_wrapIf, hlevel, hws]
    exact hbare
  | val n v => exact head_of_isLiteralPath (e := val n v) h
  | proj n e label => exact head_of_isLiteralPath (e := proj n e label) h
  | _ => cases h

/-- An argument that is printed without parentheses ends with a type if it is annotated. -/
theorem argument_endsOpen (a : Expr) :
    (!(a.isApplication || decide (a.level < 9)) && (decide (9 ≤ 10) && a.endsOpen)) =
      a.isAscription := by
  cases a <;> simp [isApplication, level, endsOpen, isAscription]

/-- An expression that lost no parentheses is written with the words of its printed form. -/
theorem written_script {e : Expr} (hform : e.hasForm) (hlost : e.lost = 0) :
    Written e.rank e.endsOpen e.unlined (wordsOf e.script) := by
  have hloose {e : Expr} (h : Written e.rank e.endsOpen e.unlined (wordsOf e.script)) :
      Written 0 false e.unlined (wordsOf e.script) := h.lower (Nat.zero_le _)
  have htype {t : Ty} (hform : t.hasForm) (hlost : t.lost = 0) :
      Ty.Written 0 t.unlined (wordsOf t.script) :=
    (Ty.written_script hform hlost).weaken (Nat.zero_le _)
  induction e using Expr.induction with
  | lam n x p body ih =>
    simp only [hasForm, Bool.and_eq_true] at hform
    obtain ⟨⟨hn, hp⟩, hb⟩ := hform
    obtain ⟨hp', hb'⟩ := Nat.add_eq_zero_iff.mp hlost
    rw [unlined, unlined_note hn]
    cases p with
    | typed t =>
      have hlam := Written.lam (x := x) (htype hp hp') (hloose (ih hb hb'))
      simpa [script, Param.script, rank, endsOpen, Param.unlined] using hlam
    | dictionary => cases hp
    | erased => cases hp
  | tlam n x bs body ih =>
    simp only [hasForm, Bool.and_eq_true] at hform
    rw [unlined, unlined_note hform.1]
    have htlam : Written 0 false (tlam .blank x bs body.unlined)
        ((.backslash, "\\") :: (.ident, x) :: boundWords bs ++ wordsOf body.script) :=
      .tlam (hloose (ih hform.2 hlost))
    rw [← wordsOf_boundScript] at htlam
    simpa [script, rank, endsOpen] using htlam
  | cond n c y z ihc ihy ihz =>
    simp only [hasForm, Bool.and_eq_true] at hform
    obtain ⟨⟨⟨hn, hc⟩, hy⟩, hz⟩ := hform
    simp only [lost, Nat.add_eq_zero_iff] at hlost
    obtain ⟨⟨hc', hy'⟩, hz'⟩ := hlost
    rw [unlined, unlined_note hn]
    have hcond := Written.cond
      ((ihc hc hc').operand (b := decide (c.level < 1)) (.inl (Nat.zero_le _)) fun _ => Nat.zero_le _)
      ((ihy hy hy').operand (b := decide (y.level < 1)) (.inl (Nat.zero_le _)) fun _ => Nat.zero_le _)
      ((ihz hz hz').operand (b := decide (z.level < 1)) (.inl (Nat.zero_le _)) fun _ => Nat.zero_le _)
    simpa [script, rank, endsOpen] using hcond
  | bin n op l r ihl ihr =>
    simp only [hasForm, Bool.and_eq_true] at hform
    obtain ⟨⟨hn, hl⟩, hr⟩ := hform
    simp only [lost, Nat.add_eq_zero_iff, ite_eq_right_iff, one_ne_zero, imp_false] at hlost
    obtain ⟨⟨hl', hr'⟩, hlevel⟩ := hlost
    obtain ⟨hlow, hhigh⟩ := op.level_bounds
    have hleft := (ihl hl hl').operand (k := op.level) (b := decide (l.level < op.level)) (by omega)
      fun hb => by
        have hge := of_decide_eq_false hb
        rw [level_lt_iff hlow (by omega)] at hge
        omega
    have hright := (ihr hr hr').operand (k := op.level + 1) (b := decide (r.level < op.level))
      (by omega) fun hb => by
        have hge : ¬r.level < op.level + 1 := by
          have := of_decide_eq_false hb
          omega
        rw [level_lt_iff (by omega) (by omega)] at hge
        omega
    rw [unlined, unlined_note hn, script, wordsOf_append]
    exact .bin op hleft hright
  | un n op e ih =>
    simp only [hasForm, Bool.and_eq_true] at hform
    obtain ⟨hlow, hhigh⟩ := op.level_bounds
    have hpart := (ih hform.2 hlost).operand (k := op.level) (b := decide (e.level < op.level))
      (.inl hhigh) fun hb => by
        have hge := of_decide_eq_false hb
        rw [level_lt_iff hlow (by omega)] at hge
        omega
    rw [unlined, unlined_note hform.1]
    exact .un op hpart
  | app n f a ihf iha =>
    simp only [hasForm, Bool.and_eq_true] at hform
    obtain ⟨⟨hn, hf⟩, ha⟩ := hform
    simp only [lost, Nat.add_eq_zero_iff, ite_eq_right_iff, one_ne_zero, imp_false] at hlost
    obtain ⟨⟨hf', ha'⟩, hopen⟩ := hlost
    have hfn := (ihf hf hf').part (k := 9) (b := decide (f.level < 9)) (by omega) fun hb => by
      have hge := of_decide_eq_false hb
      rw [level_lt_iff (by omega) (by omega)] at hge
      omega
    have harg := (iha ha ha').part (k := 10) (b := a.isApplication || decide (a.level < 9))
      (by omega) rank_of_argument
    obtain ⟨w, ws, hws, -⟩ := harg.exists_head
    have hhead (ho : (!decide (f.level < 9) && (decide (9 ≤ 9) && f.endsOpen)) = true) :
        w.1 ∉ Ty.startKinds := by
      simp only [Bool.and_eq_true] at ho
      rw [ho.2.2, Bool.true_and, Bool.not_eq_true', Bool.not_eq_false] at hopen
      obtain ⟨v, vs, hvs, hv⟩ := head_of_startsLiteral hopen
      rw [hvs] at hws
      rwa [← (List.cons.inj hws).1]
    rw [hws, argument_endsOpen] at harg
    rw [unlined, unlined_note hn, script, wordsOf_append, wordsOf_gap, hws]
    exact .app hfn harg hhead
  | tapp n f t ih =>
    simp only [hasForm, Bool.and_eq_true] at hform
    obtain ⟨⟨hn, hf⟩, ht⟩ := hform
    simp only [lost, Nat.add_eq_zero_iff, ite_eq_right_iff, one_ne_zero, imp_false] at hlost
    obtain ⟨⟨hf', ht'⟩, hlevel⟩ := hlost
    have hfn := (ih hf hf').part (k := 9) (b := decide (f.level < 9)) (by omega) fun hb => by
      have hge := of_decide_eq_false hb
      rw [level_lt_iff (by omega) (by omega)] at hge
      omega
    have harg : Ty.Written 3 t.unlined (wordsOf t.script) :=
      (Ty.written_script ht ht').weaken (Nat.le_of_not_lt hlevel)
    rw [unlined, unlined_note hn, script, wordsOf_append]
    exact .tapp hfn harg
  | ascribe n e t ih =>
    simp only [hasForm, Bool.and_eq_true] at hform
    obtain ⟨⟨hn, he⟩, ht⟩ := hform
    simp only [lost, Nat.add_eq_zero_iff, ite_eq_right_iff, one_ne_zero, imp_false] at hlost
    obtain ⟨⟨he', ht'⟩, hlevel⟩ := hlost
    have hpart := (ih he he').operand (k := 11) (b := decide (e.level < 9)) (.inr rfl) fun hb => by
      have hge : ¬e.level < 10 := by
        have := of_decide_eq_false hb
        omega
      rw [level_lt_ten_iff] at hge
      omega
    rw [unlined, unlined_note hn, script, wordsOf_append]
    exact .ascribe hpart (htype ht ht')
  | proj n e label ih =>
    simp only [hasForm, Bool.and_eq_true] at hform
    have hpart := (ih hform.2 hlost).operand (k := 11) (b := decide (e.level < 10)) (.inr rfl)
      fun hb => by
        have hge := of_decide_eq_false hb
        rw [level_lt_ten_iff] at hge
        omega
    rw [unlined, unlined_note hform.1, script, wordsOf_append]
    exact .proj label hpart
  | var n x =>
    rw [unlined, unlined_note hform]
    exact .var x
  | val n v =>
    simp only [hasForm, Bool.and_eq_true] at hform
    rw [unlined, unlined_note hform.1]
    exact written_val hform.2
  | list n es ih =>
    simp only [hasForm, Bool.and_eq_true] at hform
    have hes := (hasFormItems_iff es).mp hform.2
    have hlost := lostItems_eq_zero.mp hlost
    set gs := es.map fun e => (e.unlined, wordsOf e.script) with hgs
    have hlist : Written 12 false (.list .blank (gs.map (·.1)))
        ((.lbracket, "[") :: listed (.rbracket, "]") (gs.map (·.2))) := by
      refine .list fun g hg => ?_
      obtain ⟨e, he, rfl⟩ := List.mem_map.mp hg
      exact hloose (ih e he (hes e he) (hlost e he))
    rw [unlined, unlined_note hform.1, unlinedItems_eq, script, scriptItems_eq, List.cons_append,
      wordsOf_word, wordsOf_listed, List.map_map]
    rw [hgs, List.map_map, List.map_map] at hlist
    exact hlist
  | record n fs ih =>
    simp only [hasForm, Bool.and_eq_true] at hform
    obtain ⟨⟨hn, hlabels⟩, hfs⟩ := hform
    have hlabels := of_decide_eq_true hlabels
    have hfs := (hasFormFields_iff fs).mp hfs
    have hlost := lostFields_eq_zero.mp hlost
    set gs := fs.map fun f => ((f.1, f.2.unlined), wordsOf f.2.script) with hgs
    have hrec : Written 12 false (.record .blank (gs.map (·.1)))
        ((.lbrace, "\x7b") :: fieldWords gs) := by
      refine .record ?_ ?_
      · rw [hgs, List.map_map]
        exact hlabels
      · intro g hg
        obtain ⟨f, hf, rfl⟩ := List.mem_map.mp hg
        exact hloose (ih f hf (hfs f hf) (hlost f hf))
    rw [unlined, unlined_note hn, unlinedFields_eq, script, scriptFields_eq, List.cons_append,
      wordsOf_word, wordsOf_listed, List.map_map]
    rw [fieldWords, hgs, List.map_map, List.map_map] at hrec
    exact hrec

end Expr

end TraitCalculus
