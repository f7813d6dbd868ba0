import Mathlib
import TraitCalculus.Fresh

/-! Fresh names do not meet names that are in use. A name is old at `k` if no draw after the
`k`-th gives it; identifiers of the source are old from the start. -/
namespace TraitCalculus

/-- A name that a program text can hold. -/
def SourceName (x : String) : Prop := '$' ∉ x.toList

/-- No draw after the `k`-th gives this name. -/
def OldName (k : Nat) (x : String) : Prop := ∀ base j, x = freshName base j → j ≤ k

theorem dollar_not_mem_repr (k : Nat) : '$' ∉ (toString k).toList := by
  intro h
  have hd : '$' ∈ Nat.toDigits 10 k := by simpa [Nat.repr] using h
  have := Nat.isDigit_of_mem_toDigits (by decide) (by decide) hd
  simp at this

theorem toList_freshName (base : String) (k : Nat) :
    (freshName base k).toList = base.toList ++ '$' :: (toString k).toList := by
  simp [freshName]

/-- What stands behind the last mark is determined. -/
theorem behind_dollar_inj {xs ys ds es : List Char} (hd : '$' ∉ ds) (he : '$' ∉ es)
    (h : xs ++ '$' :: ds = ys ++ '$' :: es) : ds = es := by
  have behind (zs cs : List Char) (hc : '$' ∉ cs) :
      ((zs ++ '$' :: cs).reverse.takeWhile (· ≠ '$')).reverse = cs := by
    have hall : ∀ c ∈ cs.reverse, decide (c ≠ '$') = true := by
      intro c hcs
      have : c ≠ '$' := fun hce => hc (hce ▸ List.mem_reverse.mp hcs)
      simpa using this
    rw [List.reverse_append, List.reverse_cons, List.append_assoc,
      List.takeWhile_append_of_pos hall]
    simp
  rw [← behind xs ds hd, ← behind ys es he, h]

theorem freshName_index_inj {a b : String} {j k : Nat} (h : freshName a j = freshName b k) :
    j = k := by
  have hl := congrArg String.toList h
  rw [toList_freshName, toList_freshName] at hl
  have hd := behind_dollar_inj (dollar_not_mem_repr j) (dollar_not_mem_repr k) hl
  exact Nat.repr_injective (String.toList_injective hd)

theorem SourceName.old {x : String} (h : SourceName x) (k : Nat) : OldName k x := by
  intro base j hx
  refine absurd ?_ h
  rw [hx, toList_freshName]
  simp

theorem OldName.mono {x : String} {j k : Nat} (h : OldName j x) (hjk : j ≤ k) : OldName k x :=
  fun base i hx => (h base i hx).trans hjk

theorem oldName_freshName (base : String) (k : Nat) : OldName k (freshName base k) :=
  fun _ _ h => (freshName_index_inj h).symm.le

theorem not_oldName_freshName (base : String) {j k : Nat} (h : k < j) :
    ¬OldName k (freshName base j) :=
  fun hold => absurd (hold base j rfl) (by omega)

/-- A name that is drawn differs from every name in use. -/
theorem OldName.ne_freshName {x : String} {k : Nat} (h : OldName k x) (base : String) :
    x ≠ freshName base (k + 1) := by
  intro hx
  exact not_oldName_freshName base (Nat.lt_succ_self k) (hx ▸ h)

end TraitCalculus
