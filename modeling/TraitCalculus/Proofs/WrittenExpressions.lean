import TraitCalculus.Proofs.WrittenTypes
import TraitCalculus.Expr.Parser

/-! Expressions as they are written. As for types, the relation between an expression and its words
follows the levels of the parser, which reads what is written for each level. -/
namespace TraitCalculus

open TraitCalculus.Parser

def BinOp.kind : BinOp → Kind
  | or => .or | and => .and | gt => .gt | lt => .lt | geq => .geq | leq => .leq | eq => .eq
  | neq => .neq | add => .add | sub => .sub | mul => .mult | div => .div | mod => .mod

def BinOp.word (op : BinOp) : Word := (op.kind, op.symbol)

def UnOp.kind : UnOp → Kind
  | not => .not
  | neg => .sub

def UnOp.word (op : UnOp) : Word := (op.kind, op.symbol)

def boolWord : Bool → Word
  | true => (.trueWord, "true")
  | false => (.falseWord, "false")

/-- A note without its line. -/
def Note.unlined (n : Note) : Note := ⟨none, n.type⟩

def Param.unlined : Param → Param
  | typed t => typed t.unlined
  | p => p

namespace Expr

mutual

/-- An expression without the lines it was read at. -/
def unlined : Expr → Expr
  | lam n x p body => lam n.unlined x p.unlined body.unlined
  | tlam n x bounds body => tlam n.unlined x bounds body.unlined
  | cond n c y z => cond n.unlined c.unlined y.unlined z.unlined
  | bin n op l r => bin n.unlined op l.unlined r.unlined
  | un n op e => un n.unlined op e.unlined
  | app n f a => app n.unlined f.unlined a.unlined
  | tapp n f t => tapp n.unlined f.unlined t.unlined
  | ascribe n e t => ascribe n.unlined e.unlined t.unlined
  | proj n e label => proj n.unlined e.unlined label
  | var n x => var n.unlined x
  | val n v => val n.unlined v
  | list n es => list n.unlined (unlinedItems es)
  | record n fs => record n.unlined (unlinedFields fs)

def unlinedItems : List Expr → List Expr
  | [] => []
  | e :: es => e.unlined :: unlinedItems es

def unlinedFields : List (String × Expr) → List (String × Expr)
  | [] => []
  | (label, e) :: fs => (label, e.unlined) :: unlinedFields fs

end

-- Every proof below unfolds these, so their equations are made here, once.
attribute [local simp] unlined in
theorem unlinedItems_eq (es : List Expr) : unlinedItems es = es.map unlined :=
  walk_eq_map rfl (fun _ _ => rfl) es

theorem unlinedFields_eq (fs : List (String × Expr)) :
    unlinedFields fs = fs.map fun f => (f.1, f.2.unlined) :=
  walk_eq_map rfl (fun _ _ => rfl) fs

/-- The fields of a record, each a label and an expression with its words, up to the brace. -/
def fieldWords (fs : List ((String × Expr) × List Word)) : List Word :=
  listed (.rbrace, "\x7d") (fs.map fun f => (.ident, f.1.1) :: (.assign, "=") :: f.2)

/-- The expression is written with these words where the parser's level is at least `k`: lambdas
and conditionals have level 0, operators their own, applications 9, annotated expressions 10,
projections 11 and expressions that stand alone 12. The flag tells that the last words are the type
of an annotation, which the next word must not continue. -/
inductive Written : Nat → Bool → Expr → List Word → Prop
  | var (x : String) : Written 12 false (var .blank x) [(.ident, x)]
  | int {s : String} {i : Int} (h : Text.readInteger s = .ok i) :
    Written 12 false (val .blank (.int i)) [(.number, s)]
  | text (s : String) : Written 12 false (val .blank (.text s)) [(.string, s)]
  | bool (b : Bool) : Written 12 false (val .blank (.bool b)) [boolWord b]
  | parens {e : Expr} {ws : List Word} : Written 0 false e ws → Written 12 false e (parens ws)
  | list {es : List (Expr × List Word)} :
    (∀ e ∈ es, Written 0 false e.1 e.2) → Written 12 false (list .blank (es.map (·.1)))
      ((.lbracket, "[") :: listed (.rbracket, "]") (es.map (·.2)))
  | record {fs : List ((String × Expr) × List Word)} (hlabels : (fs.map (·.1.1)).Nodup) :
    (∀ f ∈ fs, Written 0 false f.1.2 f.2) → Written 12 false (record .blank (fs.map (·.1)))
      ((.lbrace, "\x7b") :: fieldWords fs)
  | proj {e : Expr} {ws : List Word} (label : String) :
    Written 11 false e ws →
      Written 11 false (proj .blank e label) (ws ++ [(.dot, "."), (.ident, label)])
  | ascribe {e : Expr} {t : Ty} {ws ws' : List Word} :
    Written 11 false e ws → Ty.Written 0 t ws' →
      Written 10 true (ascribe .blank e t) (ws ++ (.colon, ":") :: ws')
  | app {o o' : Bool} {f a : Expr} {w : Word} {ws ws' : List Word} :
    Written 9 o f ws → Written 10 o' a (w :: ws') → (o = true → w.1 ∉ Ty.startKinds) →
      Written 9 o' (app .blank f a) (ws ++ w :: ws')
  | tapp {o : Bool} {f : Expr} {t : Ty} {ws ws' : List Word} :
    Written 9 o f ws → Ty.Written 3 t ws' →
      Written 9 false (tapp .blank f t) (ws ++ (.atSign, "@") :: ws')
  | un {e : Expr} {ws : List Word} (op : UnOp) :
    Written op.level false e ws → Written op.level false (un .blank op e) (op.word :: ws)
  | bin {l r : Expr} {ws ws' : List Word} (op : BinOp) :
    Written op.level false l ws → Written (op.level + 1) false r ws' →
      Written op.level false (bin .blank op l r) (ws ++ op.word :: ws')
  | cond {c y z : Expr} {ws ws' ws'' : List Word} :
    Written 0 false c ws → Written 0 false y ws' → Written 0 false z ws'' →
      Written 0 false (cond .blank c y z) ((.ifWord, "if") :: ws ++ (.thenWord, "then") :: ws'
        ++ (.elseWord, "else") :: ws'')
  | lam {x : String} {t : Ty} {e : Expr} {ws ws' : List Word} :
    Ty.Written 0 t ws → Written 0 false e ws' → Written 0 false (lam .blank x (.typed t) e)
      ((.backslash, "\\") :: (.ident, x) :: (.colon, ":") :: ws ++ (.dot, ".") :: ws')
  | tlam {x : String} {bs : List String} {e : Expr} {ws : List Word} :
    Written 0 false e ws →
      Written 0 false (tlam .blank x bs e) ((.backslash, "\\") :: (.ident, x) :: boundWords bs ++ ws)
  | argument {o : Bool} {e : Expr} {ws : List Word} : Written 10 o e ws → Written 9 o e ws
  | loosen {k : Nat} {o : Bool} {e : Expr} {ws : List Word} (hk : k ≠ 9) :
    Written (k + 1) o e ws → Written k false e ws

/-- The kinds a phrase of level `k` starts with. -/
def heads (k : Nat) : List Kind :=
  (if k = 0 then [.backslash, .ifWord] else []) ++ (if k ≤ 4 then [.not] else [])
    ++ (if k ≤ 8 then [.sub] else []) ++ startKinds

theorem heads_subset {k k' : Nat} (h : k ≤ k') : heads k' ⊆ heads k := by
  intro x hx
  simp only [heads, List.mem_append] at hx ⊢
  rcases hx with ((hx | hx) | hx) | hx
  · split_ifs at hx with h0
    · rw [if_pos (by omega)]
      exact .inl (.inl (.inl hx))
    · cases hx
  · split_ifs at hx with h4
    · rw [if_pos (by omega : k ≤ 4)]
      exact .inl (.inl (.inr hx))
    · cases hx
  · split_ifs at hx with h8
    · rw [if_pos (by omega : k ≤ 8)]
      exact .inl (.inr hx)
    · cases hx
  · exact .inr hx

theorem Written.exists_head {k : Nat} {o : Bool} {e : Expr} {ws : List Word}
    (h : Written k o e ws) : ∃ w vs, ws = w :: vs ∧ w.1 ∈ heads k := by
  induction h with
  | var x | text s => exact ⟨_, _, rfl, by simp [heads, startKinds]⟩
  | int _ => exact ⟨_, _, rfl, by simp [heads, startKinds]⟩
  | bool b => exact ⟨_, _, rfl, by cases b <;> decide⟩
  | parens _ _ | list _ _ | record _ _ _ => exact ⟨_, _, rfl, by decide⟩
  | cond _ _ _ _ _ _ | lam _ _ _ | tlam _ _ => exact ⟨_, _, rfl, by decide⟩
  | un op _ _ => exact ⟨_, _, rfl, by cases op <;> decide⟩
  | proj _ _ ih | tapp _ _ ih | app _ _ _ ih _ | bin _ _ _ ih _ =>
    obtain ⟨w, vs, rfl, hw⟩ := ih
    exact ⟨w, _, rfl, hw⟩
  | ascribe _ _ ih | argument _ ih =>
    obtain ⟨w, vs, rfl, hw⟩ := ih
    exact ⟨w, _, rfl, heads_subset (by decide) hw⟩
  | loosen _ _ ih =>
    obtain ⟨w, vs, rfl, hw⟩ := ih
    exact ⟨w, vs, rfl, heads_subset (Nat.le_succ _) hw⟩

/-- The operators that bind at a level. -/
def opsAt : Nat → List (Kind × BinOp)
  | 2 => [(.or, .or)]
  | 3 => [(.and, .and)]
  | 5 => relOps
  | 6 => addOps
  | 7 => mulOps
  | _ => []

theorem lookup_opsAt (op : BinOp) : (opsAt op.level).lookup op.kind = some op := by
  cases op <;> rfl

/-- The levels of binary operators. -/
def binaryLevels : List Nat := [2, 3, 5, 6, 7]

theorem level_mem_binaryLevels (op : BinOp) : op.level ∈ binaryLevels := by
  cases op <;> decide

section

variable (n : Nat)

def negation : Parser Expr := prefixed (applied (parser n) (Ty.parser n) n) .sub .neg n

def product : Parser Expr := operated (negation n) mulOps n

def sum : Parser Expr := operated (product n) addOps n

def relation : Parser Expr := operated (sum n) relOps n

def complement : Parser Expr := prefixed (relation n) .not .not n

def conjunction : Parser Expr := operated (complement n) [(.and, .and)] n

/-- The parser of each level, from loose to tight. -/
def tier : Nat → Parser Expr
  | 0 => step (parser n) (Ty.parser n) n
  | 1 | 2 => operation (parser n) (Ty.parser n) n
  | 3 => conjunction n
  | 4 => complement n
  | 5 => relation n
  | 6 => sum n
  | 7 => product n
  | 8 => negation n
  | 9 => applied (parser n) (Ty.parser n) n
  | 10 => ascribed (parser n) (Ty.parser n) n
  | 11 => projected (parser n) n
  | _ => atom (parser n) n

theorem tier_binary {k : Nat} (hk : k ∈ binaryLevels) :
    tier n k = operated (tier n (k + 1)) (opsAt k) n := by
  simp only [binaryLevels, List.mem_cons, List.not_mem_nil, or_false] at hk
  rcases hk with rfl | rfl | rfl | rfl | rfl <;> rfl

end

/-- What would continue a phrase of level `k`. -/
def continuing (k : Nat) : List Kind :=
  (if k ≤ 2 then [.or] else []) ++ (if k ≤ 3 then [.and] else [])
    ++ (if k ≤ 5 then relOps.map (·.1) else []) ++ (if k ≤ 6 then addOps.map (·.1) else [])
    ++ (if k ≤ 7 then mulOps.map (·.1) else []) ++ (if k ≤ 9 then .arrow :: .atSign :: startKinds else [])
    ++ (if k ≤ 10 then [.colon] else []) ++ (if k ≤ 11 then [.dot] else [])

/-- What would continue an argument, behind whose annotation also types do. -/
def behind (o : Bool) : List Kind := continuing 10 ++ if o then Ty.continuing else []

theorem behind_subset (o : Bool) : behind o ⊆ continuing 9 := by
  cases o <;> decide

/-- How the parser of each level reads the words. Behind operators, arguments and projections that
are not finished it goes on with more of them. -/
def ReadAt (k : Nat) (o : Bool) (e : Expr) (ws : List Word) : Prop :=
  ∀ n, match k with
    | 0 => Takes n (continuing 0) (tier n 0) ws (·.unlined = e)
    | 1 => Takes n (continuing 1) (tier n 1) ws (·.unlined = e)
    | 4 => ∀ m ≤ n, Takes m (continuing 4) (prefixed (tier n 5) .not .not m) ws (·.unlined = e)
    | 8 => ∀ m ≤ n, Takes m (continuing 8) (prefixed (tier n 9) .sub .neg m) ws (·.unlined = e)
    | 9 => Leads n (behind o) (tier n 9) ws fun q => ∃ line e' m, e'.unlined = e ∧
        n - ws.length ≤ m ∧ q = arguments (parser n) (Ty.parser n) n line e' m
    | 10 => Takes n (behind o) (tier n 10) ws (·.unlined = e)
    | 11 => Leads n [] (tier n 11) ws fun q => ∃ line e' m, e'.unlined = e ∧
        n - ws.length ≤ m ∧ q = projections line e' m
    | 12 => Takes n [] (tier n 12) ws (·.unlined = e)
    | k => k ∈ binaryLevels ∧ Leads n (continuing (k + 1)) (tier n k) ws fun q => ∃ line e' m,
        e'.unlined = e ∧ n - ws.length ≤ m ∧ q = operations (tier n (k + 1)) (opsAt k) line e' m

section

variable {k n : Nat} {o o' : Bool} {e f a l r c y z : Expr} {t : Ty} {w : Word}
  {ws ws' ws'' : List Word}

/-- Inner expressions have one unit of fuel less. -/
theorem ReadAt.parser (h : ReadAt 0 false e ws) (n : Nat) :
    Takes (n - 1) (continuing 0) (parser n) ws (·.unlined = e) := by
  cases n with
  | zero => exact leads_of_eq_zero (by omega)
  | succ n => exact h n

theorem ReadAt.leads_binary (hk : k ∈ binaryLevels) (h : ReadAt k o e ws) (n : Nat) :
    Leads n (continuing (k + 1)) (tier n k) ws fun q => ∃ line e' m,
      e'.unlined = e ∧ n - ws.length ≤ m ∧ q = operations (tier n (k + 1)) (opsAt k) line e' m := by
  simp only [binaryLevels, List.mem_cons, List.not_mem_nil, or_false] at hk
  rcases hk with rfl | rfl | rfl | rfl | rfl <;> exact (h n).2

theorem readAt_binary (hk : k ∈ binaryLevels) (h : ∀ n, Leads n (continuing (k + 1)) (tier n k) ws
    fun q => ∃ line e' m, e'.unlined = e ∧ n - ws.length ≤ m ∧
      q = operations (tier n (k + 1)) (opsAt k) line e' m) : ReadAt k o e ws := by
  intro n
  have hn := h n
  simp only [binaryLevels, List.mem_cons, List.not_mem_nil, or_false] at hk
  rcases hk with rfl | rfl | rfl | rfl | rfl <;> exact ⟨by decide, hn⟩

theorem operations_succ (operand : Parser Expr) (ops : List (Kind × BinOp)) (line : Nat)
    (left : Expr) (n : Nat) : operations operand ops line left (n + 1) = (do
      match ops.lookup (← kind) with
      | none => return left
      | some op =>
        let _ ← next
        let right ← operand
        operations operand ops line (.bin (.atLine line) op left right) n) := rfl

theorem lookup_opsAt_of_not_mem (hk : k ∈ binaryLevels) {x : Kind} (hx : x ∉ continuing k) :
    (opsAt k).lookup x = none := by
  have hsub : (opsAt k).map (·.1) ⊆ continuing k := by
    simp only [binaryLevels, List.mem_cons, List.not_mem_nil, or_false] at hk
    rcases hk with rfl | rfl | rfl | rfl | rfl <;> decide
  rw [List.lookup_eq_none_iff]
  intro p hp
  have hne : x ≠ p.1 := fun h => hx (hsub (List.mem_map.mpr ⟨p, hp, h.symm⟩))
  simpa using hne

/-- Operators of a level end where none of them follows. -/
theorem ReadAt.takes_binary (hk : k ∈ binaryLevels) (h : ReadAt k o e ws) (n : Nat) :
    Takes n (continuing k) (tier n k) ws (·.unlined = e) := by
  have hsub : continuing (k + 1) ⊆ continuing k := by
    simp only [binaryLevels, List.mem_cons, List.not_mem_nil, or_false] at hk
    rcases hk with rfl | rfl | rfl | rfl | rfl <;> decide
  refine Leads.stop (h.leads_binary hk n) hsub ?_
  rintro _ ⟨line, e', m, he', hm, rfl⟩
  cases m with
  | zero => exact leads_of_eq_zero (by omega)
  | succ m =>
    rw [operations_succ]
    refine leads_kind_nil fun x hx => ?_
    rw [lookup_opsAt_of_not_mem hk hx]
    exact takes_pure he'

/-- An operand is followed by the operators of its level. -/
theorem readAt_operand (hk : k ∈ binaryLevels)
    (h : ∀ n, Takes n (continuing (k + 1)) (tier n (k + 1)) (w :: ws) (·.unlined = e)) :
    ReadAt k false e (w :: ws) := by
  refine readAt_binary hk fun n => ?_
  rw [tier_binary n hk]
  refine Leads.peek fun u _ => ?_
  exact (h n).leads fun e' he' => ⟨u.line, e', n, he', by omega, rfl⟩

theorem ReadAt.takes_operand (h : ReadAt (k + 1) o e ws) (hk : k ∈ binaryLevels) (n : Nat) :
    Takes n (continuing (k + 1)) (tier n (k + 1)) ws (·.unlined = e) := by
  simp only [binaryLevels, List.mem_cons, List.not_mem_nil, or_false] at hk
  rcases hk with rfl | rfl | rfl | rfl | rfl
  · exact h.takes_binary (by decide) n
  · exact h n n le_rfl
  · exact h.takes_binary (by decide) n
  · exact h.takes_binary (by decide) n
  · exact h n n le_rfl

theorem ReadAt.bin (op : BinOp) (hl : ReadAt op.level false l ws)
    (hr : ∀ n, Takes n (continuing (op.level + 1)) (tier n (op.level + 1)) ws' (·.unlined = r)) :
    ReadAt op.level false (bin .blank op l r) (ws ++ op.word :: ws') := by
  have hk := level_mem_binaryLevels op
  refine readAt_binary hk fun n => ?_
  have hends : op.kind ∉ continuing (op.level + 1) := by
    cases op <;> decide
  refine Leads.trans (hl.leads_binary hk n) (ends_cons hends) ?_
  rintro _ ⟨line, l', m, hl', hm, rfl⟩
  cases m with
  | zero => exact leads_of_eq_zero (by omega)
  | succ m =>
    rw [operations_succ]
    refine Leads.kind ?_
    rw [show (opsAt op.level).lookup op.word.1 = some op from lookup_opsAt op]
    refine Leads.next fun _ _ => ?_
    refine Takes.leads (Leads.mono (hr n) (by omega)) fun r' hr' => ⟨line, _, m, ?_, ?_, rfl⟩
    · rw [unlined, hl', hr']
      rfl
    · simp only [List.length_append, List.length_cons]
      omega

theorem prefixed_succ (operand : Parser Expr) (k : Kind) (op : UnOp) (n : Nat) :
    prefixed operand k op (n + 1) = (do
      let t ← peek
      if t.kind = k then
        let _ ← next
        let e ← prefixed operand k op n
        return .un (.atLine t.line) op e
      else operand) := rfl

/-- Signs in front of an operand. -/
theorem takes_prefixed_sign {no : List Kind} {operand : Parser Expr} (op : UnOp)
    (h : ∀ m ≤ n, Takes m no (prefixed operand op.kind op m) ws (·.unlined = e)) :
    ∀ m ≤ n, Takes m no (prefixed operand op.kind op m) (op.word :: ws)
      (·.unlined = un .blank op e) := by
  intro m hm
  cases m with
  | zero => exact leads_of_eq_zero (by omega)
  | succ m =>
    rw [prefixed_succ]
    refine Leads.peek fun u hu => ?_
    rw [if_pos (show u.kind = op.kind from Token.kind_of_word hu)]
    refine Leads.next fun _ _ => ?_
    refine Takes.map (h m (by omega)) fun e' he' => ?_
    rw [unlined, he']
    rfl

/-- An operand without a sign. -/
theorem takes_prefixed_operand {no : List Kind} {operand : Parser Expr} {op : UnOp}
    (hw : w.1 ≠ op.kind) (h : Takes n no operand (w :: ws) (·.unlined = e)) :
    ∀ m ≤ n, Takes m no (prefixed operand op.kind op m) (w :: ws) (·.unlined = e) := by
  intro m hm
  cases m with
  | zero => exact leads_of_eq_zero (by omega)
  | succ m =>
    rw [prefixed_succ]
    refine Leads.peek fun u hu => ?_
    rw [if_neg (by rw [Token.kind_of_word hu]; exact hw)]
    exact Leads.mono h hm

theorem ReadAt.un (op : UnOp) (h : ReadAt op.level false e ws) :
    ReadAt op.level false (un .blank op e) (op.word :: ws) := by
  cases op with
  | not => exact fun n => takes_prefixed_sign .not (h n)
  | neg => exact fun n => takes_prefixed_sign .neg (h n)

theorem arguments_succ (expr : Parser Expr) (ty : Parser Ty) (bound line : Nat) (fn : Expr)
    (n : Nat) : arguments expr ty bound line fn (n + 1) = (do
      let k ← kind
      if k ∈ startKinds then
        let arg ← ascribed expr ty bound
        arguments expr ty bound line (.app (.atLine line) fn arg) n
      else if k = .atSign then
        let _ ← next
        let s ← Ty.unapplied ty bound
        arguments expr ty bound line (.tapp (.atLine line) fn s) n
      else return fn) := rfl

/-- An application ends where no argument follows. -/
theorem ReadAt.takes_applied (h : ReadAt 9 o e ws) (n : Nat) :
    Takes n (continuing 9) (tier n 9) ws (·.unlined = e) := by
  refine Leads.stop (h n) (behind_subset o) ?_
  rintro _ ⟨line, e', m, he', hm, rfl⟩
  cases m with
  | zero => exact leads_of_eq_zero (by omega)
  | succ m =>
    rw [arguments_succ]
    refine leads_kind_nil fun x hx => ?_
    have hstart : x ∉ startKinds := fun hmem => hx (by
      have hsub : startKinds ⊆ continuing 9 := by decide
      exact hsub hmem)
    have hat : x ≠ .atSign := by
      rintro rfl
      exact hx (by decide)
    rw [if_neg hstart, if_neg hat]
    exact takes_pure he'

theorem ReadAt.app (hf : ReadAt 9 o f ws) (ha : ReadAt 10 o' a (w :: ws'))
    (hw : w.1 ∈ startKinds) (ho : o = true → w.1 ∉ Ty.startKinds) :
    ReadAt 9 o' (app .blank f a) (ws ++ w :: ws') := by
  intro n
  have hends : w.1 ∉ behind o := by
    intro hmem
    rcases List.mem_append.mp hmem with hmem | hmem
    · have hnone : ∀ x ∈ startKinds, x ∉ continuing 10 := by decide
      exact hnone _ hw hmem
    · cases o with
      | false => cases hmem
      | true =>
        rcases List.mem_cons.mp hmem with harrow | hmem
        · rw [harrow] at hw
          exact absurd hw (by decide)
        · exact ho rfl hmem
  refine Leads.trans (hf n) (ends_cons hends) ?_
  rintro _ ⟨line, f', m, hf', hm, rfl⟩
  cases m with
  | zero => exact leads_of_eq_zero (by omega)
  | succ m =>
    rw [arguments_succ]
    refine Leads.kind ?_
    rw [if_pos hw]
    refine Takes.leads (Leads.mono (ha n) (by omega)) fun a' ha' => ⟨line, _, m, ?_, ?_, rfl⟩
    · rw [unlined, hf', ha']
      rfl
    · simp only [List.length_append, List.length_cons]
      omega

theorem ReadAt.tapp (hf : ReadAt 9 o f ws) (ht : Ty.ReadAt 3 t ws') :
    ReadAt 9 false (tapp .blank f t) (ws ++ (.atSign, "@") :: ws') := by
  intro n
  have hends : Kind.atSign ∉ behind o := by
    cases o <;> decide
  refine Leads.trans (hf n) (ends_cons hends) ?_
  rintro _ ⟨line, f', m, hf', hm, rfl⟩
  cases m with
  | zero => exact leads_of_eq_zero (by omega)
  | succ m =>
    rw [arguments_succ]
    refine Leads.kind ?_
    rw [if_neg (by decide), if_pos rfl]
    refine Leads.next fun _ _ => ?_
    have htype : Takes (n - ws.length - 1) (behind false) (Ty.unapplied (Ty.parser n) n) ws'
        (·.unlined = t) := Leads.subset (Leads.mono (ht n) (by omega)) (List.nil_subset _)
    refine htype.leads fun t' ht' => ⟨line, _, m, ?_, ?_, rfl⟩
    · rw [unlined, hf', ht']
      rfl
    · simp only [List.length_append, List.length_cons]
      omega

theorem ReadAt.argument (h : ReadAt 10 o e (w :: ws)) : ReadAt 9 o e (w :: ws) := by
  intro n
  refine Leads.peek fun u _ => ?_
  exact (h n).leads fun e' he' => ⟨u.line, e', n, he', by omega, rfl⟩

theorem projections_succ (line : Nat) (e : Expr) (n : Nat) :
    projections line e (n + 1) = (do
      if (← kind) = .dot then
        let _ ← next
        let label ← ident
        projections line (.proj (.atLine line) e label) n
      else return e) := rfl

/-- Projections end where no dot follows. -/
theorem ReadAt.takes_projected (h : ReadAt 11 o e ws) (n : Nat) :
    Takes n (continuing 11) (tier n 11) ws (·.unlined = e) := by
  refine Leads.stop (h n) (List.nil_subset _) ?_
  rintro _ ⟨line, e', m, he', hm, rfl⟩
  cases m with
  | zero => exact leads_of_eq_zero (by omega)
  | succ m =>
    rw [projections_succ]
    refine leads_kind_nil fun x hx => ?_
    rw [if_neg (by rintro rfl; exact hx (by decide))]
    exact takes_pure he'

theorem ReadAt.proj (h : ReadAt 11 o e ws) (label : String) :
    ReadAt 11 false (proj .blank e label) (ws ++ [(.dot, "."), (.ident, label)]) := by
  intro n
  refine Leads.trans (h n) (ends_cons List.not_mem_nil) ?_
  rintro _ ⟨line, e', m, he', hm, rfl⟩
  cases m with
  | zero => exact leads_of_eq_zero (by omega)
  | succ m =>
    rw [projections_succ]
    refine Leads.kind ?_
    rw [if_pos rfl]
    refine Leads.next fun _ _ => Leads.ident ?_
    refine leads_nil ⟨line, _, m, ?_, ?_, rfl⟩
    · rw [unlined, he']
      rfl
    · simp only [List.length_append, List.length_cons, List.length_nil]
      omega

theorem ReadAt.ascribe (h : ReadAt 11 o e (w :: ws)) (ht : Ty.ReadAt 0 t ws') :
    ReadAt 10 true (ascribe .blank e t) (w :: ws ++ (.colon, ":") :: ws') := by
  intro n
  refine Leads.peek fun u _ => ?_
  refine Takes.bind (h.takes_projected n) (ends_cons (by decide)) fun e' he' => ?_
  refine Leads.kind ?_
  rw [if_pos rfl]
  refine Leads.next fun _ _ => ?_
  have htype : Takes (n - (w :: ws).length - 1) (behind true) (Ty.parser n) ws' (·.unlined = t) :=
    Leads.subset (Leads.mono (ht.parser n) (by simp only [List.length_cons]; omega)) (by decide)
  refine htype.map fun t' ht' => ?_
  rw [unlined, he', ht']
  rfl

theorem ReadAt.unascribed (h : ReadAt 11 o e (w :: ws)) : ReadAt 10 false e (w :: ws) := by
  intro n
  refine Leads.peek fun u _ => ?_
  refine Takes.stop (h.takes_projected n) (by decide) fun e' he' => ?_
  refine leads_kind_nil fun x hx => ?_
  rw [if_neg (by rintro rfl; exact hx (by decide))]
  exact takes_pure he'

theorem ReadAt.unprojected (h : ReadAt 12 o e (w :: ws)) : ReadAt 11 false e (w :: ws) := by
  intro n
  refine Leads.peek fun u _ => ?_
  exact (h n).leads fun e' he' => ⟨u.line, e', n, he', by omega, rfl⟩

theorem readAt_var (x : String) : ReadAt 12 false (var .blank x) [(.ident, x)] := by
  intro n
  refine Leads.peek fun u hu => ?_
  rw [Token.kind_of_word hu]
  refine Leads.next fun _ _ => takes_pure ?_
  rw [Token.text_of_word hu]
  rfl

theorem readAt_int {s : String} {i : Int} (h : Text.readInteger s = .ok i) :
    ReadAt 12 false (val .blank (.int i)) [(.number, s)] := by
  intro n
  refine Leads.peek fun u hu => ?_
  rw [Token.kind_of_word hu]
  refine Leads.next fun _ _ => ?_
  rw [Token.text_of_word hu, h]
  exact takes_pure rfl

theorem readAt_text (s : String) : ReadAt 12 false (val .blank (.text s)) [(.string, s)] := by
  intro n
  refine Leads.peek fun u hu => ?_
  rw [Token.kind_of_word hu]
  refine Leads.next fun _ _ => takes_pure ?_
  rw [Token.text_of_word hu]
  rfl

theorem readAt_bool (b : Bool) : ReadAt 12 false (val .blank (.bool b)) [boolWord b] := by
  intro n
  refine Leads.peek fun u hu => ?_
  rw [Token.kind_of_word hu]
  cases b <;> exact Leads.next fun _ _ => takes_pure rfl

theorem ReadAt.parens (h : ReadAt 0 false e ws) : ReadAt 12 false e (parens ws) := by
  intro n
  refine Leads.peek fun u hu => ?_
  rw [Token.kind_of_word hu]
  refine Leads.next fun _ _ => ?_
  refine Takes.bind (h.parser n) (ends_cons (by decide)) fun e' he' => ?_
  exact Leads.expect fun _ _ => takes_pure he'

theorem takes_elementList {expr : Parser Expr} {N m : Nat} {es : List (Expr × List Word)}
    {done : List Expr} (hN : N ≤ m) (hhead : ∀ e ∈ es, ∃ w vs, e.2 = w :: vs ∧ w.1 ∈ heads 0)
    (he : ∀ e ∈ es, Takes N (continuing 0) expr e.2 (·.unlined = e.1)) :
    Takes N [] (elementList expr done m) (listed (.rbracket, "]") (es.map (·.2)))
      fun gs => unlinedItems gs = unlinedItems done.reverse ++ es.map (·.1) := by
  induction m generalizing N es done with
  | zero => exact leads_of_eq_zero (by omega)
  | succ m ih =>
    unfold elementList
    cases es with
    | nil =>
      refine Leads.kind ?_
      rw [if_pos rfl]
      exact Leads.next fun _ _ => takes_pure (List.append_nil _).symm
    | cons e es =>
      obtain ⟨e, ws⟩ := e
      obtain ⟨w, vs, hws, hw⟩ := hhead _ List.mem_cons_self
      obtain rfl : ws = w :: vs := hws
      refine Leads.kind ?_
      rw [if_neg (by rintro hk; rw [hk] at hw; exact absurd hw (by decide))]
      have hfirst : Takes N (continuing 0) expr (w :: vs) (·.unlined = e) :=
        he _ List.mem_cons_self
      refine Takes.bind hfirst (ends_listedMore (by decide) (by decide) _) fun e' he' => ?_
      refine Leads.listedMore (by decide) ?_
      have hrest : Takes (N - (w :: vs).length) [] (elementList expr (e' :: done) m)
          (listed (.rbracket, "]") (es.map (·.2))) _ :=
        ih (by simp only [List.length_cons]; omega)
          (fun f hf => hhead f (List.mem_cons_of_mem _ hf))
          fun f hf => Leads.mono (he f (List.mem_cons_of_mem _ hf)) (Nat.sub_le _ _)
      refine Takes.imp hrest fun gs hgs => ?_
      rw [hgs, List.map_cons, ← he']
      simp [unlinedItems_eq]

theorem readAt_list {es : List (Expr × List Word)}
    (hhead : ∀ e ∈ es, ∃ w vs, e.2 = w :: vs ∧ w.1 ∈ heads 0)
    (h : ∀ e ∈ es, ReadAt 0 false e.1 e.2) : ReadAt 12 false (list .blank (es.map (·.1)))
      ((.lbracket, "[") :: listed (.rbracket, "]") (es.map (·.2))) := by
  intro n
  refine Leads.peek fun u hu => ?_
  rw [Token.kind_of_word hu]
  refine Leads.next fun _ _ => ?_
  refine Takes.map (takes_elementList (by omega) hhead fun e he => (h e he).parser n) ?_
  intro gs hgs
  exact congrArg (Expr.list .blank) hgs

theorem readAt_record {fs : List ((String × Expr) × List Word)} (hlabels : (fs.map (·.1.1)).Nodup)
    (h : ∀ f ∈ fs, ReadAt 0 false f.1.2 f.2) : ReadAt 12 false (record .blank (fs.map (·.1)))
      ((.lbrace, "\x7b") :: fieldWords fs) := by
  intro n
  refine Leads.peek fun u hu => ?_
  rw [Token.kind_of_word hu]
  refine Leads.next fun _ _ => ?_
  rw [fieldList_eq]
  refine Takes.map (takes_labelled (by decide) (by decide) hlabels (by omega)
    fun f hf => (h f hf).parser n) ?_
  intro gs hgs
  exact congrArg (Expr.record .blank) ((unlinedFields_eq gs).trans hgs)

theorem ReadAt.cond (hc : ReadAt 0 false c ws) (hy : ReadAt 0 false y ws')
    (hz : ReadAt 0 false z ws'') : ReadAt 0 false (cond .blank c y z)
      ((.ifWord, "if") :: ws ++ (.thenWord, "then") :: ws' ++ (.elseWord, "else") :: ws'') := by
  intro n
  rw [List.append_assoc]
  refine Leads.peek fun u hu => leads_kindAhead fun k => ?_
  rw [Token.kind_of_word hu, if_neg (by simp), if_neg (by simp), if_pos rfl]
  refine Leads.next fun _ _ => ?_
  refine Takes.bind (hc.parser n) (ends_cons (by decide)) fun c' hc' => ?_
  refine Leads.expect fun _ _ => ?_
  refine Takes.bind (Leads.mono (hy.parser n) (by omega)) (ends_cons (by decide)) fun y' hy' => ?_
  refine Leads.expect fun _ _ => ?_
  refine Takes.map (Leads.mono (hz.parser n) (by omega)) fun z' hz' => ?_
  rw [unlined, hc', hy', hz']
  rfl

theorem ReadAt.lam {x : String} (ht : Ty.ReadAt 0 t ws) (h : ReadAt 0 false e ws') :
    ReadAt 0 false (lam .blank x (.typed t) e)
      ((.backslash, "\\") :: (.ident, x) :: (.colon, ":") :: ws ++ (.dot, ".") :: ws') := by
  intro n
  refine Leads.peek fun u hu => Leads.kindAhead (v := (.colon, ":")) rfl ?_
  rw [if_pos ⟨Token.kind_of_word hu, rfl⟩]
  refine Leads.next fun _ _ => Leads.ident (Leads.expect fun _ _ => ?_)
  refine Takes.bind (Leads.mono (ht.parser n) (by omega)) (ends_cons (by decide)) fun t' ht' => ?_
  refine Leads.expect fun _ _ => ?_
  refine Takes.map (Leads.mono (h.parser n) (by omega)) fun e' he' => ?_
  rw [unlined, he', Param.unlined, ht']
  rfl

theorem ReadAt.tlam {x : String} {bs : List String} (h : ReadAt 0 false e ws) :
    ReadAt 0 false (tlam .blank x bs e)
      ((.backslash, "\\") :: (.ident, x) :: boundWords bs ++ ws) := by
  intro n
  obtain ⟨v, vs, hv, hkind⟩ : ∃ v vs, boundWords bs = v :: vs ∧ (v.1 = .dot ∨ v.1 = .implWord) := by
    cases bs with
    | nil => exact ⟨_, _, rfl, .inl rfl⟩
    | cons b bs => exact ⟨_, _, rfl, .inr rfl⟩
  refine Leads.peek fun u hu => Leads.kindAhead (v := v) (by rw [hv]; rfl) ?_
  have hcolon : v.1 ≠ .colon := by
    rcases hkind with hk | hk <;> rw [hk] <;> decide
  rw [if_neg fun h => hcolon h.2, if_pos ⟨Token.kind_of_word hu, hkind⟩]
  refine Leads.next fun _ _ => Leads.ident ?_
  refine (takes_bounds bs (by omega)).then ?_
  rintro _ rfl
  refine Takes.map (Leads.mono (h.parser n) (by omega)) fun e' he' => ?_
  rw [unlined, he']
  rfl

/-- What starts with no backslash and no `if` is an operation. -/
theorem ReadAt.whole (h : ReadAt 1 o e (w :: ws)) (hw : w.1 ∈ heads 1) :
    ReadAt 0 false e (w :: ws) := by
  intro n
  have hback : w.1 ≠ .backslash := by
    intro hk
    rw [hk] at hw
    exact absurd hw (by decide)
  have hif : w.1 ≠ .ifWord := by
    intro hk
    rw [hk] at hw
    exact absurd hw (by decide)
  refine Leads.peek fun u hu => leads_kindAhead fun k => ?_
  rw [Token.kind_of_word hu, if_neg fun h => hback h.1, if_neg fun h => hback h.1, if_neg hif]
  exact Leads.subset (h n) (by decide)

/-- A level reads what the next tighter one does. -/
theorem ReadAt.loosen (h : ReadAt (k + 1) o e (w :: ws)) (hk : k ≠ 9) (hw : w.1 ∈ heads (k + 1)) :
    ReadAt k false e (w :: ws) := by
  match k with
  | 0 => exact h.whole hw
  | 1 => exact fun n => Leads.subset (h.takes_binary (by decide) n) (by decide)
  | 2 | 3 | 5 | 6 | 7 => exact readAt_operand (by decide) fun n => h.takes_operand (by decide) n
  | 4 =>
    have hnot : w.1 ≠ UnOp.not.kind := by
      intro heq
      rw [heq] at hw
      exact absurd hw (by decide)
    intro n
    exact takes_prefixed_operand hnot (Leads.subset (h.takes_binary (by decide) n) (by decide))
  | 8 =>
    have hneg : w.1 ≠ UnOp.neg.kind := by
      intro heq
      rw [heq] at hw
      exact absurd hw (by decide)
    intro n
    exact takes_prefixed_operand hneg (Leads.subset (h.takes_applied n) (by decide))
  | 9 => exact absurd rfl hk
  | 10 => exact h.unascribed
  | 11 => exact h.unprojected
  | k + 12 =>
    obtain ⟨hlevel, -⟩ := h 0
    simp only [binaryLevels, List.mem_cons, List.not_mem_nil, or_false] at hlevel
    omega

/-- Every level of the parser reads what is written for it. -/
theorem Written.readAt (h : Written k o e ws) : ReadAt k o e ws := by
  induction h with
  | var x => exact readAt_var x
  | int h => exact readAt_int h
  | text s => exact readAt_text s
  | bool b => exact readAt_bool b
  | parens _ ih => exact ih.parens
  | list h ih => exact readAt_list (fun e he => (h e he).exists_head) ih
  | record hlabels _ ih => exact readAt_record hlabels ih
  | proj label _ ih => exact ih.proj label
  | ascribe h ht ih =>
    obtain ⟨w, vs, rfl, -⟩ := h.exists_head
    exact ih.ascribe ht.readAt
  | app _ ha ho ihf iha =>
    obtain ⟨w, vs, hcons, hw⟩ := ha.exists_head
    obtain ⟨rfl, rfl⟩ := List.cons.inj hcons
    exact ihf.app iha hw ho
  | tapp _ ht ih => exact ih.tapp ht.readAt
  | un op _ ih => exact ih.un op
  | bin op _ _ ihl ihr => exact ihl.bin op fun n => ihr.takes_operand (level_mem_binaryLevels op) n
  | cond _ _ _ ihc ihy ihz => exact ihc.cond ihy ihz
  | lam ht _ ih => exact ReadAt.lam ht.readAt ih
  | tlam _ ih => exact ih.tlam
  | argument h ih =>
    obtain ⟨w, vs, rfl, -⟩ := h.exists_head
    exact ih.argument
  | loosen hk h ih =>
    obtain ⟨w, vs, rfl, hw⟩ := h.exists_head
    exact ih.loosen hk hw

/-- What is written is read, up to a token that does not continue it. -/
theorem Written.parse {ts rest : List Token} (h : Written 0 false e ws)
    (hts : ts.map Token.word = ws)
    (hrest : (rest.headD (Token.finishOf (ts ++ rest))).kind ∉ continuing 0) :
    ∃ e', parse (ts ++ rest) = .ok (e', rest) ∧ e'.unlined = e := by
  obtain ⟨_, ⟨e', he', rfl⟩, hrun⟩ := h.readAt.parser (fuelFor (ts ++ rest))
    (Token.finishOf (ts ++ rest)) ts rest hts (by unfold fuelFor; omega) hrest
  exact ⟨e', hrun, he'⟩

end

end Expr

end TraitCalculus
