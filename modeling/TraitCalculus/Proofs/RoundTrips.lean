import TraitCalculus.Proofs.LexedTokens

/-! Printing and reading back. An expression that was read is read again from its printed form if and
only if the printer left out no parentheses that reading needs, and each of its texts can stand
between double quotes. -/
namespace TraitCalculus

open TraitCalculus.Parser

/-- The kinds of the words in a list of marks. -/
def kindsOf (ms : List Mark) : List Kind := (wordsOf ms).map (·.1)

section

variable (ms ms' : List Mark)

@[simp] theorem kindsOf_nil : kindsOf [] = [] := rfl

@[simp] theorem kindsOf_gap : kindsOf (.gap :: ms) = kindsOf ms := rfl

@[simp] theorem kindsOf_word (w : Word) : kindsOf (.word w :: ms) = w.1 :: kindsOf ms := rfl

@[simp] theorem kindsOf_append : kindsOf (ms ++ ms') = kindsOf ms ++ kindsOf ms' := by
  rw [kindsOf, wordsOf_append, List.map_append]
  rfl

theorem kindsOf_wrapIf_true : kindsOf (wrapIf true ms) = .lparen :: kindsOf ms ++ [.rparen] := by
  simp [wrapIf]

end

/-- Marks without opening parentheses. -/
theorem pairs_of_forall {ms : List Mark} (h : ∀ m ∈ ms, ∀ w, m = .word w → w.1 ≠ .lparen)
    (ks : List Kind) : pairs (kindsOf ms ++ ks) = pairs ks := by
  induction ms with
  | nil => rfl
  | cons m ms ih =>
    obtain ⟨hm, hms⟩ := List.forall_mem_cons.mp h
    cases m with
    | gap => exact ih hms
    | word w =>
      rw [kindsOf_word, List.cons_append, pairs_cons (hm w rfl)]
      exact ih hms

theorem pairs_bounds (bs : List String) (ks : List Kind) :
    pairs (kindsOf (boundScript bs) ++ ks) = pairs ks := by
  apply pairs_of_forall
  have hword {v : Word} (hv : v.1 ≠ .lparen) (w : Word) (h : Mark.word v = .word w) :
      w.1 ≠ .lparen := by
    cases h
    exact hv
  exact (forall_mem_bounds nofun (hword (by decide)) (hword (by decide))).mpr fun b _ =>
    hword (by simp)

theorem pairs_commas {α : Type} {f : α → List Mark} {g : α → Nat} {items : List α}
    (h : ∀ a ∈ items, ∀ ks, pairs (kindsOf (f a) ++ ks) = g a + pairs ks) (ks : List Kind) :
    pairs (kindsOf (commaGap.intercalate (items.map f)) ++ ks) = (items.map g).sum + pairs ks := by
  induction items with
  | nil => simp
  | cons a items ih =>
    obtain ⟨ha, hitems⟩ := List.forall_mem_cons.mp h
    cases items with
    | nil => simpa using ha ks
    | cons b items =>
      have hrest := ih hitems
      rw [List.map_cons, List.map_cons, List.intercalate_cons_cons, List.map_cons, List.sum_cons,
        kindsOf_append, kindsOf_append, List.append_assoc, List.append_assoc, ha]
      rw [List.map_cons] at hrest
      show g a + pairs (.comma :: (kindsOf _ ++ ks)) = _
      rw [pairs_cons (by decide), hrest, Nat.add_assoc]

namespace Ty

theorem exists_kind (t : Ty) : ∃ k ks, kindsOf t.script = k :: ks ∧ k ≠ .backslash := by
  have hpart {t : Ty} (b : Bool) (h : ∃ k ks, kindsOf t.script = k :: ks ∧ k ≠ .backslash) :
      ∃ k ks, kindsOf (wrapIf b t.script) = k :: ks ∧ k ≠ .backslash := by
    cases b with
    | false => exact h
    | true => exact ⟨_, _, kindsOf_wrapIf_true _, by decide⟩
  induction t using Ty.induction with
  | name line x | all line x bs body ih | list line t ih | emptyList | record line fs ih =>
    exact ⟨_, _, rfl, by simp⟩
  | arrow line d c ihd ihc =>
    obtain ⟨k, ks, hks, hk⟩ := hpart (d.level ≤ 1) ihd
    exact ⟨k, _, by rw [script, kindsOf_append, hks, List.cons_append], hk⟩
  | app line f a ihf iha =>
    obtain ⟨k, ks, hks, hk⟩ := hpart (f.level < 2) ihf
    exact ⟨k, _, by rw [script, kindsOf_append, hks, List.cons_append], hk⟩

/-- The pairs in the words of a printed type are its own. -/
theorem pairs_script (t : Ty) (ks : List Kind) :
    pairs (kindsOf t.script ++ ks) = t.wraps + pairs ks := by
  have hpart {t : Ty} (h : ∀ ks, pairs (kindsOf t.script ++ ks) = t.wraps + pairs ks) (p : Prop)
      [Decidable p] (ks : List Kind) : pairs (kindsOf (wrapIf (decide p) t.script) ++ ks) =
        t.wraps + (if p then 1 else 0) + pairs ks := by
    by_cases hp : p
    · obtain ⟨k, ks', hks, hk⟩ := t.exists_kind
      have hhead : (kindsOf t.script ++ .rparen :: ks).head? ≠ some .backslash := by
        rw [hks]
        exact fun h => hk (Option.some.inj h)
      rw [decide_eq_true hp, if_pos hp, kindsOf_wrapIf_true]
      simp only [List.cons_append, List.append_assoc, List.nil_append]
      rw [pairs_lparen hhead, h, pairs_cons (by decide)]
      omega
    · rw [decide_eq_false hp, if_neg hp]
      exact h ks
  induction t using Ty.induction generalizing ks with
  | name line x => exact (pairs_cons (by simp) ks).trans (Nat.zero_add _).symm
  | all line x bs body ih =>
    simp [script, pairs, pairs_bounds, ih, wraps]
  | arrow line d c ihd ihc =>
    simp [script, pairs, hpart ihd, hpart ihc, wraps]
    omega
  | app line f a ihf iha =>
    simp [script, hpart ihf, hpart iha, wraps]
    omega
  | list line t ih => simp [script, pairs, ih, wraps]
  | emptyList => simp [script, pairs, wraps]
  | record line fs ih =>
    have hfield : ∀ f ∈ fs, ∀ ks, pairs (kindsOf (.word (.ident, f.1) :: .word (.colon, ":") :: .gap ::
        f.2.script) ++ ks) = f.2.wraps + pairs ks := fun f hf ks => by
      simp [pairs, ih f hf]
    have hfields := pairs_commas hfield (.rbrace :: ks)
    rw [wraps, wrapsFields_eq]
    simpa [script, scriptFields_eq, pairs] using hfields

end Ty

namespace Expr

/-- The printed form of a lambda starts with a backslash, and no other does. -/
theorem exists_kind (e : Expr) :
    ∃ k ks, kindsOf e.script = k :: ks ∧ (k = .backslash ↔ e.isLambda) := by
  have hpart {e : Expr} {k : Nat} (hk : 0 < k)
      (h : ∃ k ks, kindsOf e.script = k :: ks ∧ (k = .backslash ↔ e.isLambda)) :
      ∃ κ ks, kindsOf (wrapIf (e.level < k) e.script) = κ :: ks ∧ κ ≠ .backslash := by
    by_cases hlevel : e.level < k
    · rw [decide_eq_true hlevel]
      exact ⟨_, _, kindsOf_wrapIf_true _, by decide⟩
    · rw [decide_eq_false hlevel]
      obtain ⟨κ, ks, hks, hκ⟩ := h
      refine ⟨κ, ks, hks, fun hback => hlevel ?_⟩
      rw [level_of_isLambda (hκ.mp hback)]
      exact hk
  induction e using Expr.induction with
  | lam n x p body ih
  | tlam n x bs body ih
  | cond n c y z ihc ihy ihz
  | var n x
  | list n es ih
  | record n fs ih => exact ⟨_, _, rfl, by simp [isLambda]⟩
  | bin n op l r ihl ihr =>
    have := op.level_bounds
    obtain ⟨κ, ks, hks, hκ⟩ := hpart (k := op.level) (by omega) ihl
    exact ⟨κ, _, by rw [script, kindsOf_append, hks, List.cons_append], by simp [hκ, isLambda]⟩
  | un n op e ih => exact ⟨_, _, rfl, by cases op <;> simp [isLambda, UnOp.word, UnOp.kind]⟩
  | app n f a ihf iha | tapp n f t ihf | ascribe n e t ihf =>
    obtain ⟨κ, ks, hks, hκ⟩ := hpart (k := 9) (by omega) ihf
    exact ⟨κ, _, by rw [script, kindsOf_append, hks, List.cons_append], by simp [hκ, isLambda]⟩
  | proj n e label ih =>
    obtain ⟨κ, ks, hks, hκ⟩ := hpart (k := 10) (by omega) ih
    exact ⟨κ, _, by rw [script, kindsOf_append, hks, List.cons_append], by simp [hκ, isLambda]⟩
  | val n v =>
    refine ⟨v.word.1, [], rfl, ?_⟩
    cases v with
    | bool b => cases b <;> simp [isLambda, Value.word, boolWord]
    | _ => simp [isLambda, Value.word]

/-- Parentheses around a part count unless it is a lambda. -/
theorem pairs_wrapIf {e : Expr} (h : ∀ ks, pairs (kindsOf e.script ++ ks) = e.wraps + pairs ks)
    (b : Bool) (ks : List Kind) :
    pairs (kindsOf (wrapIf b e.script) ++ ks) = e.wraps + slot b e + pairs ks := by
  cases b with
  | false => exact h ks
  | true =>
    obtain ⟨k, ks', hks, hk⟩ := e.exists_kind
    have hwords : kindsOf (wrapIf true e.script) ++ ks =
        .lparen :: (kindsOf e.script ++ .rparen :: ks) := by
      rw [kindsOf_wrapIf_true]
      simp
    have hhead : (kindsOf e.script ++ .rparen :: ks).head? = some k := by
      rw [hks]
      rfl
    have hinner : pairs (kindsOf e.script ++ .rparen :: ks) = e.wraps + pairs ks := by
      rw [h, pairs_cons (by decide)]
    rw [hwords]
    by_cases hlambda : e.isLambda = true
    · rw [pairs_lambda (hhead.trans (congrArg some (hk.mpr hlambda))), hinner,
        slot_of_isLambda hlambda, Nat.add_zero]
    · have hother : (kindsOf e.script ++ .rparen :: ks).head? ≠ some .backslash := by
        rw [hhead]
        exact fun h => hlambda (hk.mp (Option.some.inj h))
      rw [pairs_lparen hother, hinner, slot_true (Bool.eq_false_iff.mpr hlambda)]
      omega

theorem slot_conditional (e : Expr) : slot (e.level < 1) e = 0 := by
  cases e with
  | bin n op l r =>
    have := op.level_bounds
    have hlevel : ¬(bin n op l r).level < 1 := by
      dsimp only [level]
      omega
    rw [decide_eq_false hlevel]
    rfl
  | un n op e =>
    have := op.level_bounds
    have hlevel : ¬(un n op e).level < 1 := by
      dsimp only [level]
      omega
    rw [decide_eq_false hlevel]
    rfl
  | _ => rfl

/-- The pairs in the words of a printed expression are its own. -/
theorem pairs_script (e : Expr) (ks : List Kind) :
    pairs (kindsOf e.script ++ ks) = e.wraps + pairs ks := by
  -- a part of a conditional has parentheses only if it is a lambda
  have hpart {e : Expr} (h : ∀ ks, pairs (kindsOf e.script ++ ks) = e.wraps + pairs ks)
      (ks : List Kind) : pairs (kindsOf (wrapIf (e.level < 1) e.script) ++ ks) = e.wraps + pairs ks := by
    rw [pairs_wrapIf h, slot_conditional, Nat.add_zero]
  induction e using Expr.induction generalizing ks with
  | lam n x p body ih =>
    cases p <;> simp [script, Param.script, pairs, ih, Ty.pairs_script, wraps, Param.wraps, Nat.add_assoc]
  | tlam n x bs body ih => simp [script, pairs, pairs_bounds, ih, wraps]
  | cond n c y z ihc ihy ihz =>
    have hwords : kindsOf (cond n c y z).script = .ifWord :: kindsOf (wrapIf (c.level < 1) c.script)
        ++ .thenWord :: kindsOf (wrapIf (y.level < 1) y.script)
        ++ .elseWord :: kindsOf (wrapIf (z.level < 1) z.script) := by
      simp only [script, List.cons_append, kindsOf_append, kindsOf_word, kindsOf_gap]
    rw [hwords]
    simp only [List.cons_append, List.append_assoc]
    rw [pairs_cons (by decide), hpart ihc, pairs_cons (by decide), hpart ihy, pairs_cons (by decide),
      hpart ihz, wraps]
    omega
  | bin n op l r ihl ihr =>
    have hop : op.word.1 ≠ .lparen := by
      cases op <;> decide
    simp [script, pairs, hop, pairs_wrapIf ihl, pairs_wrapIf ihr, wraps]
    omega
  | un n op e ih =>
    have hop : op.word.1 ≠ .lparen := by
      cases op <;> decide
    simp [script, pairs, hop, pairs_wrapIf ih, wraps]
  | app n f a ihf iha =>
    simp [script, pairs_wrapIf ihf, pairs_wrapIf iha, wraps]
    omega
  | tapp n f t ih | ascribe n e t ih =>
    simp [script, pairs, pairs_wrapIf ih, Ty.pairs_script, wraps]
    omega
  | proj n e label ih => simp [script, pairs, pairs_wrapIf ih, wraps]
  | var n x => simp [script, pairs, wraps]
  | val n v =>
    have hv : v.word.1 ≠ .lparen := by
      cases v with
      | bool b => cases b <;> decide
      | _ => simp [Value.word]
    simp [script, pairs, hv, wraps]
  | list n es ih =>
    have hitems := pairs_commas (f := script) (g := wraps) ih (.rbracket :: ks)
    rw [wraps, wrapsItems_eq]
    simpa [script, scriptItems_eq, pairs] using hitems
  | record n fs ih =>
    have hfield : ∀ f ∈ fs, ∀ ks, pairs (kindsOf (.word (.ident, f.1) :: .gap :: .word (.assign, "=") ::
        .gap :: f.2.script) ++ ks) = f.2.wraps + pairs ks := fun f hf ks => by
      simp [pairs, ih f hf]
    have hfields := pairs_commas hfield (.rbrace :: ks)
    rw [wraps, wrapsFields_eq]
    simpa [script, scriptFields_eq, pairs] using hfields

end Expr

@[simp] theorem textsOf_nil : textsOf [] = [] := rfl

theorem textsOf_word {w : Word} (hw : w.1 ≠ .string) (ws : List Word) :
    textsOf (w :: ws) = textsOf ws := by
  have hnone : textsOf [w] = [] := by
    simp [textsOf, hw]
  rw [textsOf_cons, hnone, List.nil_append]

theorem textsOf_bounds (bs : List String) : textsOf (wordsOf (boundScript bs)) = [] := by
  have hnone {ms : List Mark} (h : ∀ m ∈ ms, ∀ w, m = .word w → w.1 ≠ .string) :
      textsOf (wordsOf ms) = [] := by
    induction ms with
    | nil => rfl
    | cons m ms ih =>
      obtain ⟨hm, hms⟩ := List.forall_mem_cons.mp h
      cases m with
      | gap => exact ih hms
      | word w => rw [wordsOf_word, textsOf_word (hm w rfl), ih hms]
  have hword {v : Word} (hv : v.1 ≠ .string) (w : Word) (h : Mark.word v = .word w) :
      w.1 ≠ .string := by
    cases h
    exact hv
  exact hnone ((forall_mem_bounds nofun (hword (by decide)) (hword (by decide))).mpr fun b _ =>
    hword (by simp))

theorem textsOf_wrapIf (b : Bool) (ms : List Mark) :
    textsOf (wordsOf (wrapIf b ms)) = textsOf (wordsOf ms) := by
  cases b with
  | false => rfl
  | true =>
    have hwords : wordsOf (wrapIf true ms) = (.lparen, "(") :: (wordsOf ms ++ [(.rparen, ")")]) := by
      simp [wrapIf]
    rw [hwords, textsOf_word (by decide), textsOf_append]
    exact List.append_nil _

theorem textsOf_commas (mss : List (List Mark)) :
    textsOf (wordsOf (commaGap.intercalate mss)) = mss.flatMap fun ms => textsOf (wordsOf ms) := by
  induction mss with
  | nil => rfl
  | cons ms mss ih =>
    cases mss with
    | nil => simp
    | cons ms' mss =>
      rw [List.intercalate_cons_cons, wordsOf_append, wordsOf_append, textsOf_append, textsOf_append,
        ih, List.flatMap_cons]
      exact congrArg (· ++ _) (List.append_nil _)

theorem Ty.textsOf_script (t : Ty) : textsOf (wordsOf t.script) = [] := by
  induction t using Ty.induction with
  | name line x => simp [script, textsOf_word]
  | all line x bs body ih => simp [script, textsOf_word, textsOf_bounds, ih]
  | arrow line d c ihd ihc => simp [script, textsOf_word, textsOf_wrapIf, ihd, ihc]
  | app line f a ihf iha => simp [script, textsOf_wrapIf, ihf, iha]
  | list line t ih => simp [script, textsOf_word, ih]
  | emptyList => rfl
  | record line fs ih =>
    have hfields : (scriptFields fs).flatMap (fun ms => textsOf (wordsOf ms)) = [] := by
      rw [scriptFields_eq, List.flatMap_map, List.flatMap_eq_nil_iff]
      intro f hf
      simp [textsOf_word, ih f hf]
    simp [script, textsOf_word, textsOf_commas, hfields]

theorem Param.textsOf_script (p : Param) : textsOf (wordsOf p.script) = [] := by
  cases p with
  | typed t => simp [script, textsOf_word, Ty.textsOf_script]
  | dictionary => rfl
  | erased => rfl

namespace Expr

/-- The texts in the words of a printed expression are its own. -/
theorem textsOf_script (e : Expr) : textsOf (wordsOf e.script) = e.texts := by
  induction e using Expr.induction with
  | lam n x p body ih => simp [script, textsOf_word, Param.textsOf_script, ih, texts]
  | tlam n x bs body ih => simp [script, textsOf_word, textsOf_bounds, ih, texts]
  | cond n c y z ihc ihy ihz => simp [script, textsOf_word, textsOf_wrapIf, ihc, ihy, ihz, texts]
  | bin n op l r ihl ihr =>
    have hop : op.word.1 ≠ .string := by
      cases op <;> decide
    simp [script, textsOf_word, hop, textsOf_wrapIf, ihl, ihr, texts]
  | un n op e ih =>
    have hop : op.word.1 ≠ .string := by
      cases op <;> decide
    simp [script, textsOf_word, hop, textsOf_wrapIf, ih, texts]
  | app n f a ihf iha => simp [script, textsOf_wrapIf, ihf, iha, texts]
  | tapp n f t ih | ascribe n e t ih =>
    simp [script, textsOf_word, textsOf_wrapIf, Ty.textsOf_script, ih, texts]
  | proj n e label ih => simp [script, textsOf_word, textsOf_wrapIf, ih, texts]
  | var n x => simp [script, textsOf_word, texts]
  | val n v => rfl
  | list n es ih =>
    have hitems : (scriptItems es).flatMap (fun ms => textsOf (wordsOf ms)) = textsItems es := by
      rw [scriptItems_eq, List.flatMap_map, textsItems_eq]
      exact List.flatMap_congr ih
    simp [script, textsOf_word, textsOf_commas, hitems, texts]
  | record n fs ih =>
    have hfields : (scriptFields fs).flatMap (fun ms => textsOf (wordsOf ms)) = textsFields fs := by
      rw [scriptFields_eq, List.flatMap_map, textsFields_eq]
      apply List.flatMap_congr
      intro f hf
      simp [textsOf_word, ih f hf]
    simp [script, textsOf_word, textsOf_commas, hfields, texts]

end Expr

namespace Ty

theorem level_unlined (t : Ty) : t.unlined.level = t.level := by
  cases t <;> rfl

theorem map_unlinedFields {β : Type} {F : Ty → β} {fs : List (String × Ty)}
    (h : ∀ f ∈ fs, F f.2.unlined = F f.2) :
    (unlinedFields fs).map (fun f => F f.2) = fs.map fun f => F f.2 := by
  rw [unlinedFields_eq, List.map_map]
  exact List.map_congr_left h

/-- Lines make no difference to the parentheses of a type. -/
theorem tallies_unlined (t : Ty) : t.unlined.wraps = t.wraps ∧ t.unlined.lost = t.lost := by
  induction t using Ty.induction with
  | name line x => exact ⟨rfl, rfl⟩
  | all line x bs body ih => exact ih
  | arrow line d c ihd ihc | app line f a ihd ihc =>
    simp [unlined, wraps, lost, level_unlined, ihd, ihc]
  | list line t ih => exact ih
  | emptyList => exact ⟨rfl, rfl⟩
  | record line fs ih =>
    constructor
    · rw [unlined, wraps, wraps, wrapsFields_eq, wrapsFields_eq,
        map_unlinedFields (F := wraps) fun f hf => (ih f hf).1]
    · rw [unlined, lost, lost, lostFields_eq, lostFields_eq,
        map_unlinedFields (F := lost) fun f hf => (ih f hf).2]

end Ty

theorem Param.tallies_unlined (p : Param) : p.unlined.wraps = p.wraps ∧ p.unlined.lost = p.lost := by
  cases p with
  | typed t => exact t.tallies_unlined
  | dictionary | erased => exact ⟨rfl, rfl⟩

namespace Expr

theorem level_unlined (e : Expr) : e.unlined.level = e.level := by
  cases e <;> rfl

theorem isLambda_unlined (e : Expr) : e.unlined.isLambda = e.isLambda := by
  cases e <;> rfl

theorem isApplication_unlined (e : Expr) : e.unlined.isApplication = e.isApplication := by
  cases e <;> rfl

theorem isAscription_unlined (e : Expr) : e.unlined.isAscription = e.isAscription := by
  cases e <;> rfl

theorem endsOpen_unlined (e : Expr) : e.unlined.endsOpen = e.endsOpen := by
  cases e with
  | app n f a => exact a.isAscription_unlined
  | _ => rfl

theorem isLiteralPath_unlined (e : Expr) : e.unlined.isLiteralPath = e.isLiteralPath := by
  induction e using Expr.induction with
  | proj n e label ih => exact ih
  | _ => rfl

theorem startsLiteral_unlined (e : Expr) : e.unlined.startsLiteral = e.startsLiteral := by
  cases e with
  | ascribe n e t | proj n e label => exact e.isLiteralPath_unlined
  | _ => rfl

theorem slot_unlined (b : Bool) (e : Expr) : slot b e.unlined = slot b e := by
  rw [slot, isLambda_unlined, slot]

theorem map_unlinedItems {β : Type} {F : Expr → β} {es : List Expr}
    (h : ∀ e ∈ es, F e.unlined = F e) : (unlinedItems es).map F = es.map F := by
  rw [unlinedItems_eq, List.map_map]
  exact List.map_congr_left h

theorem map_unlinedFields {β : Type} {F : Expr → β} {fs : List (String × Expr)}
    (h : ∀ f ∈ fs, F f.2.unlined = F f.2) :
    (unlinedFields fs).map (fun f => F f.2) = fs.map fun f => F f.2 := by
  rw [unlinedFields_eq, List.map_map]
  exact List.map_congr_left h

/-- Lines make no difference to the parentheses and texts of an expression. -/
theorem tallies_unlined (e : Expr) :
    e.unlined.wraps = e.wraps ∧ e.unlined.lost = e.lost ∧ e.unlined.texts = e.texts := by
  induction e using Expr.induction with
  | lam n x p body ih => simp [unlined, wraps, lost, texts, p.tallies_unlined, ih]
  | tlam n x bs body ih => exact ih
  | cond n c y z ihc ihy ihz => simp [unlined, wraps, lost, texts, ihc, ihy, ihz]
  | bin n op l r ihl ihr =>
    simp [unlined, wraps, lost, texts, level_unlined, slot_unlined, ihl, ihr]
  | un n op e ih | proj n e label ih =>
    simp [unlined, wraps, lost, texts, level_unlined, slot_unlined, ih]
  | app n f a ihf iha =>
    simp [unlined, wraps, lost, texts, level_unlined, slot_unlined, isApplication_unlined,
      endsOpen_unlined, startsLiteral_unlined, ihf, iha]
  | tapp n f t ih =>
    simp [unlined, wraps, lost, texts, level_unlined, slot_unlined, t.tallies_unlined,
      Ty.level_unlined, ih]
  | ascribe n e t ih =>
    simp [unlined, wraps, lost, texts, level_unlined, slot_unlined, t.tallies_unlined, ih]
  | var n x => exact ⟨rfl, rfl, rfl⟩
  | val n v => exact ⟨rfl, rfl, rfl⟩
  | list n es ih =>
    refine ⟨?_, ?_, ?_⟩
    · rw [unlined, wraps, wraps, wrapsItems_eq, wrapsItems_eq, map_unlinedItems fun e he => (ih e he).1]
    · rw [unlined, lost, lost, lostItems_eq, lostItems_eq, map_unlinedItems fun e he => (ih e he).2.1]
    · rw [unlined, texts, texts, textsItems_eq, textsItems_eq, List.flatMap_def, List.flatMap_def,
        map_unlinedItems fun e he => (ih e he).2.2]
  | record n fs ih =>
    refine ⟨?_, ?_, ?_⟩
    · rw [unlined, wraps, wraps, wrapsFields_eq, wrapsFields_eq,
        map_unlinedFields (F := wraps) fun f hf => (ih f hf).1]
    · rw [unlined, lost, lost, lostFields_eq, lostFields_eq,
        map_unlinedFields (F := lost) fun f hf => (ih f hf).2.1]
    · rw [unlined, texts, texts, textsFields_eq, textsFields_eq, List.flatMap_def, List.flatMap_def,
        map_unlinedFields (F := texts) fun f hf => (ih f hf).2.2]

end Expr

theorem forall_quotable_iff (ms : List Mark) :
    (∀ m ∈ ms, m.Quotable) ↔ ∀ s ∈ textsOf (wordsOf ms), Quotable s := by
  induction ms with
  | nil => simp
  | cons m ms ih =>
    rw [List.forall_mem_cons, ih]
    cases m with
    | gap => exact and_iff_right trivial
    | word w =>
      rw [wordsOf_word, textsOf_cons, List.forall_mem_append]
      refine and_congr_left fun _ => ?_
      by_cases hw : w.1 = .string <;> simp [Mark.Quotable, textsOf, hw]

namespace Expr

section

variable {e : Expr} (hform : e.hasForm) (hwords : SpelledAll e.script)

/-- The printed form is cut into its words and blanks. -/
theorem cuts_script (hwords : SpelledAll e.script) : Cuts e.script := by
  have hcuts := (phrase_script hwords).cuts [] closes_nil trivial
  rwa [List.append_nil] at hcuts

include hform hwords in
/-- If no parentheses are lost and the texts can be quoted, the printed form is read as the
expression. -/
theorem exists_parse_render (hlost : e.lost = 0) (htexts : ∀ s ∈ e.texts, Quotable s) :
    ∃ ts e', Token.ofText e.render = .ok ts ∧ parse ts = .ok (e', []) ∧ e'.unlined = e.unlined := by
  have hquotable : ∀ m ∈ e.script, m.Quotable := by
    rw [forall_quotable_iff, textsOf_script]
    exact htexts
  obtain ⟨ts, hlex, hts⟩ :=
    exists_ofText_words (textOf_script e) hwords (cuts_script hwords) hquotable
  have hwritten : Written 0 false e.unlined (wordsOf e.script) :=
    (written_script hform hlost).lower (Nat.zero_le _)
  have hend : ((([] : List Token).headD (Token.finishOf (ts ++ []))).kind) ∉ continuing 0 := by
    rw [List.headD_nil, Token.kind_finishOf]
    decide
  obtain ⟨e', hparse, he'⟩ := hwritten.parse hts hend
  rw [List.append_nil] at hparse
  exact ⟨ts, e', hlex, hparse, he'⟩

include hwords in
/-- If the printed form is read as the expression, all its texts can be quoted. -/
theorem quotable_of_parse_render {ts : List Token} {e' : Expr} (hlex : Token.ofText e.render = .ok ts)
    (hparse : parse ts = .ok (e', [])) (he' : e'.unlined = e.unlined) : ∀ m ∈ e.script, m.Quotable := by
  by_contra hbad
  push Not at hbad
  have hkept : textsOf (ts.map Token.word) = textsOf (wordsOf e.script) := calc
    textsOf (ts.map Token.word) = e'.texts ++ Token.texts [] := (reading_of_parse hparse).texts_eq
    _ = e'.unlined.texts := by rw [e'.tallies_unlined.2.2]; exact List.append_nil _
    _ = textsOf (wordsOf e.script) := by rw [he', e.tallies_unlined.2.2, textsOf_script]
  rw [Token.ofText, ← textOf_script] at hlex
  exact textsOf_ne hwords (cuts_script hwords) hbad hlex hkept

include hwords in
/-- If the printed form is read as the expression, it lost no parentheses: the words hold too few pairs
for others. -/
theorem lost_of_parse_render {ts : List Token} {e' : Expr} (hlex : Token.ofText e.render = .ok ts)
    (hparse : parse ts = .ok (e', [])) (he' : e'.unlined = e.unlined) : e.lost = 0 := by
  have hquotable := quotable_of_parse_render hwords hlex hparse he'
  obtain ⟨ts', hlex', hts⟩ :=
    exists_ofText_words (textOf_script e) hwords (cuts_script hwords) hquotable
  obtain rfl : ts' = ts := Except.ok.inj (hlex'.symm.trans hlex)
  have hkinds : ts'.map Token.kind = kindsOf e.script := by
    rw [kindsOf, ← hts, List.map_map]
    rfl
  have hpairs : Token.pairs ts' = e.wraps := by
    have hscript := e.pairs_script []
    rw [List.append_nil] at hscript
    rw [Token.pairs, hkinds, hscript]
    rfl
  have hread := (reading_of_parse hparse).pairs_le
  have hwraps : e'.wraps = e.wraps := by
    rw [← e'.tallies_unlined.1, he', e.tallies_unlined.1]
  have hsame : e'.lost = e.lost := by
    rw [← e'.tallies_unlined.2.1, he', e.tallies_unlined.2.1]
  omega

end

/-- An expression that was read is read again from its printed form, up to lines and to the last
token, exactly if no parentheses that reading needs are left out of the printed form and each text
can stand between double quotes. -/
theorem parse_render_iff {ts rest : List Token} {e : Expr}
    (hts : ∀ t ∈ ts, ∃ code tokens, Token.ofText code = .ok tokens ∧ t ∈ tokens)
    (h : parse ts = .ok (e, rest)) :
    (∃ ts' e', Token.ofText e.render = .ok ts' ∧ parse ts' = .ok (e', []) ∧
      e'.unlined = e.unlined) ↔ e.lost = 0 ∧ ∀ s ∈ e.texts, Quotable s := by
  have hlexed : LexedAll ts := by
    intro t ht
    obtain ⟨code, tokens, hlex, hmem⟩ := hts t ht
    exact Token.lexed_ofText hlex t hmem
  obtain ⟨⟨hform, hwords⟩, -⟩ := (reading_of_parse h).spelled hlexed
  constructor
  · rintro ⟨ts', e', hlex, hparse, he'⟩
    refine ⟨lost_of_parse_render hwords hlex hparse he', ?_⟩
    rw [← textsOf_script, ← forall_quotable_iff]
    exact quotable_of_parse_render hwords hlex hparse he'
  · rintro ⟨hlost, htexts⟩
    exact exists_parse_render hform hwords hlost htexts

/-- What is read at the front of a text, and the tokens left. -/
def ofText? (code : String) : Option (Expr × List Token) :=
  (Token.ofText code).toOption.bind fun ts => (parse ts).toOption

theorem exists_of_ofText? {code : String} {P : Expr × List Token → Bool} (h : (ofText? code).any P) :
    ∃ ts e rest, Token.ofText code = .ok ts ∧ parse ts = .ok (e, rest) ∧ P (e, rest) := by
  unfold ofText? at h
  cases hts : Token.ofText code with
  | error err =>
    rw [hts] at h
    cases h
  | ok ts =>
    rw [hts] at h
    cases hparse : parse ts with
    | error err => simp [hparse, Except.toOption] at h
    | ok r => exact ⟨ts, r.1, r.2, rfl, hparse, by simpa [hparse, Except.toOption] using h⟩

/-- Operators of several levels, arguments with and without types, a text, a record and a list. -/
def printedSample : String :=
  "\\x: [t] -> Int. if !(x y < 3 - 2 * 1) && b then f @t \"a b\" (y: t) " ++
    "else \x7bl = (-z).m, n = [\\u impl A. u]\x7d"

theorem parse_render_printedSample : ∃ ts e, Token.ofText printedSample = .ok ts ∧
    parse ts = .ok (e, []) ∧ e.lost = 0 ∧ e.texts = ["a b"] ∧
    ∃ ts' e', Token.ofText e.render = .ok ts' ∧ parse ts' = .ok (e', []) ∧
      e'.unlined = e.unlined := by
  have hok : (ofText? printedSample).any fun r =>
      r.2.isEmpty && decide (r.1.lost = 0 ∧ r.1.texts = ["a b"]) := by decide +kernel
  obtain ⟨ts, e, rest, hlex, hparse, hok⟩ := exists_of_ofText? hok
  rw [Bool.and_eq_true, List.isEmpty_iff, decide_eq_true_eq] at hok
  obtain ⟨rfl, hlost, htexts⟩ := hok
  have hquotable : ∀ s ∈ e.texts, Quotable s := by
    have hall : ("a b".toList.all fun c => c ≠ '"' && c ≠ '\n') = true := by decide
    rw [htexts, List.forall_mem_singleton]
    exact List.all_eq_true.mp hall
  exact ⟨ts, e, hlex, hparse, hlost, htexts,
    (parse_render_iff (fun t ht => ⟨printedSample, ts, hlex, ht⟩) hparse).mpr ⟨hlost, hquotable⟩⟩

/-- Parentheses around a right operand of the operator's own level are left out, and the printed form
is grouped to the left. -/
theorem parse_render_regroups : ∃ ts e ts' e', Token.ofText "1 - (2 - 3)" = .ok ts ∧
    parse ts = .ok (e, []) ∧ e.render = "1 - 2 - 3" ∧ Token.ofText e.render = .ok ts' ∧
    parse ts' = .ok (e', []) ∧ e'.unlined ≠ e.unlined := by
  have hok : (ofText? "1 - (2 - 3)").any fun r =>
      r.2.isEmpty && decide (r.1.lost = 1 ∧ r.1.render = "1 - 2 - 3") := by decide +kernel
  have hagain : (ofText? "1 - 2 - 3").any fun r => r.2.isEmpty && decide (r.1.lost = 0) := by
    decide +kernel
  obtain ⟨ts, e, rest, hlex, hparse, hok⟩ := exists_of_ofText? hok
  obtain ⟨ts', e', rest', hlex', hparse', hok'⟩ := exists_of_ofText? hagain
  simp only [Bool.and_eq_true, List.isEmpty_iff, decide_eq_true_eq] at hok hok'
  obtain ⟨rfl, hlost, hrender⟩ := hok
  obtain ⟨rfl, hlost'⟩ := hok'
  refine ⟨ts, e, ts', e', hlex, hparse, hrender, hrender ▸ hlex', hparse', fun heq => ?_⟩
  have hsame : e'.lost = e.lost := by
    rw [← e'.tallies_unlined.2.1, heq, e.tallies_unlined.2.1]
  omega

end Expr

end TraitCalculus
