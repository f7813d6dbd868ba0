import Mathlib
import TraitCalculus.Text.Integer

/-! Integers and their decimal texts: what is written for an integer is read as that integer, and
what is read from a number without a sign is short enough to be written. -/
namespace TraitCalculus.Text

theorem range_of_isDigit {c : Char} (h : c.isDigit) : 48 ≤ c.toNat ∧ c.toNat ≤ 57 :=
  Char.isDigit_iff_toNat.mp h

/-- The ten digits of ASCII are the first run. -/
theorem digitValue?_of_isDigit {c : Char} (h : c.isDigit) : digitValue? c = some (c.toNat - 48) := by
  obtain ⟨hlow, hhigh⟩ := range_of_isDigit h
  have hfirst : (decide (48 ≤ c.toNat) && decide (c.toNat < 48 + 10)) = true := by
    rw [Bool.and_eq_true, decide_eq_true_eq, decide_eq_true_eq]
    omega
  have hfind : digitZeros.find? (fun z => decide (z ≤ c.toNat) && decide (c.toNat < z + 10)) =
      some 48 := List.find?_cons_of_pos hfirst
  rw [digitValue?, hfind]
  rfl

theorem isDigit_of_isDigit {c : Char} (h : c.isDigit) : isDigit c := by
  rw [isDigit, digitValue?_of_isDigit h]
  rfl

theorem exists_zero_of_isDigit {c : Char} (h : isDigit c) :
    ∃ z ∈ digitZeros, z ≤ c.toNat ∧ c.toNat < z + 10 := by
  rw [isDigit, digitValue?, Option.isSome_map] at h
  obtain ⟨z, hz⟩ := Option.isSome_iff_exists.mp h
  have hrange := List.find?_some hz
  rw [Bool.and_eq_true, decide_eq_true_eq, decide_eq_true_eq] at hrange
  exact ⟨z, List.mem_of_find?_eq_some hz, hrange⟩

/-- The digits of ASCII are one run, the others lie far behind. -/
theorem not_isDigit_of_range {c : Char} (h : c.toNat < 48 ∨ 57 < c.toNat) (hc : c.toNat < 128) :
    isDigit c = false := by
  rw [Bool.eq_false_iff]
  intro hdigit
  obtain ⟨z, hz, hlow, hhigh⟩ := exists_zero_of_isDigit hdigit
  have hzeros : ∀ z ∈ digitZeros, z = 48 ∨ 128 ≤ z := by decide
  rcases hzeros z hz with rfl | hz <;> omega

/-- A digit of any script is neither a blank nor a sign. -/
theorem not_isNumberBlank_of_isDigit {c : Char} (h : isDigit c) : ¬isNumberBlank c := by
  obtain ⟨z, hz, hlow, hhigh⟩ := exists_zero_of_isDigit h
  have hruns : ∀ z ∈ digitZeros, z + 10 ≤ 0x2000 ∨ 0x200a < z := by decide
  have hblanks : ∀ z ∈ digitZeros, ∀ b ∈ [0x09, 0x0a, 0x0b, 0x0c, 0x0d, 0x20, 0x85, 0xa0, 0x1680,
      0x2028, 0x2029, 0x202f, 0x205f, 0x3000], ¬(z ≤ b ∧ b < z + 10) := by decide
  intro hblank
  rw [isNumberBlank, Bool.or_eq_true, decide_eq_true_eq, Bool.and_eq_true, decide_eq_true_eq,
    decide_eq_true_eq] at hblank
  rcases hblank with hmem | hrange
  · exact hblanks z hz _ hmem ⟨hlow, hhigh⟩
  · have := hruns z hz
    omega

theorem splitSign_of_isDigit {c : Char} (h : isDigit c) (cs : List Char) :
    splitSign (c :: cs) = (false, c :: cs) := by
  have hne {d : Char} (hd : isDigit d = false) : c ≠ d := by
    rintro rfl
    rw [h] at hd
    cases hd
  have hminus : c ≠ '-' := hne (by decide)
  have hplus : c ≠ '+' := hne (by decide)
  rw [splitSign]
  · rintro cs' hcons
    exact hminus (List.cons.inj hcons).1
  · rintro cs' hcons
    exact hplus (List.cons.inj hcons).1

theorem ne_of_isDigit {c d : Char} (h : c.isDigit) (hd : ¬d.isDigit) : c ≠ d := by
  rintro rfl
  exact hd h

theorem underscoresOk_of_isDigit {cs : List Char} (h : ∀ c ∈ cs, c.isDigit) (digit : Bool) :
    underscoresOk digit cs = true := by
  induction cs generalizing digit with
  | nil => rfl
  | cons c cs ih =>
    have hne : c ≠ '_' := ne_of_isDigit (h c List.mem_cons_self) (by decide)
    unfold underscoresOk
    rw [if_neg hne]
    exact ih (fun d hd => h d (List.mem_cons_of_mem c hd)) true

/-- Digits alone are read as their value. -/
theorem readInteger_digits {s : String} (hdigits : ∀ c ∈ s.toList, c.isDigit) (hne : s.toList ≠ [])
    (hlen : s.toList.length ≤ digitLimit) :
    readInteger s = .ok (valueOfDigits s.toList : Int) := by
  obtain ⟨c, cs, hcons⟩ := List.exists_cons_of_ne_nil hne
  have hc : c.isDigit := hdigits c (by rw [hcons]; exact List.mem_cons_self)
  have hsign : splitSign (s.toList.dropWhile isNumberBlank) = (false, s.toList) := by
    rw [hcons, List.dropWhile_cons_of_neg (not_isNumberBlank_of_isDigit (isDigit_of_isDigit hc)),
      splitSign_of_isDigit (isDigit_of_isDigit hc)]
  have hrun : s.toList.takeWhile (fun c => isDigit c || c = '_') = s.toList := by
    rw [List.takeWhile_eq_self_iff]
    intro d hd
    rw [isDigit_of_isDigit (hdigits d hd), Bool.true_or]
  have hfilter : s.toList.filter (· ≠ '_') = s.toList := by
    rw [List.filter_eq_self]
    intro d hd
    exact decide_eq_true (ne_of_isDigit (hdigits d hd) (by decide))
  unfold readInteger
  rw [hsign]
  dsimp only
  rw [hrun, hfilter, underscoresOk_of_isDigit hdigits, if_neg (by decide), if_neg (by omega),
    List.drop_length, if_neg (by simp [hne])]
  rfl

theorem valueOfDigits_toDigits (n : Nat) : valueOfDigits (Nat.toDigits 10 n) = n := by
  have hstep (cs : List Char) (init : Nat) (h : ∀ c ∈ cs, c.isDigit) :
      cs.foldl (fun n c => 10 * n + (digitValue? c).getD 0) init = Nat.ofDigitChars 10 cs init := by
    induction cs generalizing init with
    | nil => rfl
    | cons c cs ih =>
      rw [List.foldl_cons, ih _ fun d hd => h d (List.mem_cons_of_mem _ hd),
        digitValue?_of_isDigit (h c List.mem_cons_self)]
      rfl
  have hdigits : ∀ c ∈ Nat.toDigits 10 n, c.isDigit := fun c hc =>
    Nat.isDigit_of_mem_toDigits (by decide) (by decide) hc
  calc valueOfDigits (Nat.toDigits 10 n)
      = Nat.ofDigitChars 10 (Nat.toDigits 10 n) 0 := hstep _ 0 hdigits
    _ = n := Nat.ofDigitChars_toDigits (by decide) (by decide)

theorem isDigit_of_mem_toString {n : Nat} {c : Char} (hc : c ∈ (toString n).toList) :
    c.isDigit := by
  rw [Nat.toString_eq_repr, Nat.toList_repr] at hc
  exact Nat.isDigit_of_mem_toDigits (by decide) (by decide) hc

/-- What is written for a natural number is read as that number. -/
theorem readInteger_toString {n : Nat} (hn : n < 10 ^ digitLimit) :
    readInteger (toString n) = .ok (n : Int) := by
  have hlist : (toString n).toList = Nat.toDigits 10 n := Nat.toList_repr
  have hlen : (Nat.toDigits 10 n).length ≤ digitLimit :=
    (Nat.length_toDigits_le_iff (by decide) (by decide)).mpr hn
  have hne : Nat.toDigits 10 n ≠ [] := Nat.toDigits_ne_nil
  rw [readInteger_digits (fun c => isDigit_of_mem_toString) (by rwa [hlist]) (by rwa [hlist]), hlist,
    valueOfDigits_toDigits]

theorem valueOfDigits_lt (ds : List Char) : valueOfDigits ds < 10 ^ ds.length := by
  have hdigit (c : Char) : (digitValue? c).getD 0 < 10 := by
    cases h : digitValue? c with
    | none => decide
    | some v => exact digitValue?_lt h
  induction ds using List.reverseRecOn with
  | nil => decide
  | append_singleton ds c ih =>
    have hvalue : valueOfDigits (ds ++ [c]) = 10 * valueOfDigits ds + (digitValue? c).getD 0 :=
      List.foldl_concat ..
    have hc := hdigit c
    rw [hvalue, List.length_append, List.length_singleton, Nat.pow_succ]
    omega

/-- An integer read from a text that starts with a digit has no sign and can be written. -/
theorem readInteger_bounds {s : String} {c : Char} {cs : List Char} (hs : s.toList = c :: cs)
    (hc : isDigit c) {i : Int} (h : readInteger s = .ok i) : 0 ≤ i ∧ writable i := by
  have hsign : splitSign (s.toList.dropWhile isNumberBlank) = (false, c :: cs) := by
    rw [hs, List.dropWhile_cons_of_neg (not_isNumberBlank_of_isDigit hc), splitSign_of_isDigit hc]
  unfold readInteger at h
  rw [hsign] at h
  dsimp only at h
  rw [if_neg Bool.false_ne_true] at h
  split_ifs at h with h₁ h₂ h₃
  obtain rfl := Except.ok.inj h
  set ds := ((c :: cs).takeWhile fun c => isDigit c || c = '_').filter (· ≠ '_')
  have hlt : valueOfDigits ds < 10 ^ digitLimit := calc
    valueOfDigits ds < 10 ^ ds.length := valueOfDigits_lt ds
    _ ≤ 10 ^ digitLimit := Nat.pow_le_pow_right (by decide) (Nat.le_of_not_lt h₂)
  exact ⟨Int.natCast_nonneg _, decide_eq_true hlt⟩

end TraitCalculus.Text
