/-! Association lists that keep the order in which keys came first. -/
namespace TraitCalculus.Assoc

/-- Sets the value of a key: at its place, or at the end if it is new. -/
def insert {α : Type} (x : String) (a : α) : List (String × α) → List (String × α)
  | [] => [(x, a)]
  | (y, b) :: rest => if y = x then (x, a) :: rest else (y, b) :: insert x a rest

def erase {α : Type} (x : String) (xs : List (String × α)) : List (String × α) :=
  xs.filter (·.1 ≠ x)

theorem lookup_insert_self {α : Type} (x : String) (a : α) (xs : List (String × α)) :
    (insert x a xs).lookup x = some a := by
  induction xs with
  | nil => simp [insert]
  | cons p rest ih =>
    obtain ⟨y, b⟩ := p
    by_cases h : y = x
    · simp [insert, h]
    · have hx : (x == y) = false := by simpa using Ne.symm h
      simp [insert, h, List.lookup_cons, hx, ih]

theorem lookup_insert_of_ne {α : Type} {x z : String} (a : α) (xs : List (String × α))
    (hz : z ≠ x) : (insert x a xs).lookup z = xs.lookup z := by
  induction xs with
  | nil =>
    have : (z == x) = false := by simpa using hz
    simp [insert, List.lookup_cons, this]
  | cons p rest ih =>
    obtain ⟨y, b⟩ := p
    by_cases h : y = x
    · subst h
      have : (z == y) = false := by simpa using hz
      simp [insert, List.lookup_cons, this]
    · simp [insert, h, List.lookup_cons, ih]

theorem mem_insert {α : Type} {x : String} {a : α} {xs : List (String × α)} {p : String × α}
    (h : p ∈ insert x a xs) : p = (x, a) ∨ p ∈ xs := by
  induction xs with
  | nil => exact Or.inl (List.mem_singleton.mp h)
  | cons q rest ih =>
    by_cases hq : q.1 = x
    · rw [insert, if_pos hq] at h
      exact (List.mem_cons.mp h).imp id (List.mem_cons_of_mem q)
    · rw [insert, if_neg hq] at h
      rcases List.mem_cons.mp h with hp | hp
      · exact Or.inr (hp ▸ List.mem_cons_self)
      · exact (ih hp).imp id (List.mem_cons_of_mem q)

theorem lookup_cons_if {α : Type} (z y : String) (b : α) (rest : List (String × α)) :
    ((y, b) :: rest).lookup z = if z = y then some b else rest.lookup z := by
  by_cases h : z = y
  · simp [h]
  · have hz : (z == y) = false := by simpa using h
    simp [List.lookup_cons, hz, h]

theorem mem_of_lookup {α : Type} {xs : List (String × α)} {x : String} {a : α}
    (h : xs.lookup x = some a) : (x, a) ∈ xs := by
  obtain ⟨l₁, l₂, hxs, -⟩ := List.lookup_eq_some_iff.mp h
  rw [hxs]
  exact List.mem_append_right l₁ List.mem_cons_self

theorem lookup_of_mem {α : Type} {xs : List (String × α)} (hnodup : (xs.map Prod.fst).Nodup)
    {x : String} {a : α} (h : (x, a) ∈ xs) : xs.lookup x = some a := by
  induction xs with
  | nil => cases h
  | cons p xs ih =>
    obtain ⟨hnew, hnodup⟩ := List.nodup_cons.mp hnodup
    rw [lookup_cons_if]
    rcases List.mem_cons.mp h with rfl | hmem
    · rw [if_pos rfl]
    · have hne : x ≠ p.1 := by
        rintro rfl
        exact hnew (List.mem_map.mpr ⟨_, hmem, rfl⟩)
      rw [if_neg hne, ih hnodup hmem]

theorem lookup_erase_self {α : Type} (x : String) (xs : List (String × α)) :
    (erase x xs).lookup x = none := by
  induction xs with
  | nil => rfl
  | cons p rest ih =>
    obtain ⟨y, b⟩ := p
    by_cases h : y = x
    · simpa [erase, h] using ih
    · have hx : (x == y) = false := by simpa using Ne.symm h
      simpa [erase, h, List.lookup_cons, hx] using ih

theorem lookup_erase_of_ne {α : Type} {x z : String} (xs : List (String × α)) (hz : z ≠ x) :
    (erase x xs).lookup z = xs.lookup z := by
  induction xs with
  | nil => rfl
  | cons p rest ih =>
    obtain ⟨y, b⟩ := p
    by_cases h : y = x
    · have he : erase x ((y, b) :: rest) = erase x rest := by simp [erase, h]
      rw [he, ih, lookup_cons_if, if_neg (h ▸ hz)]
    · have he : erase x ((y, b) :: rest) = (y, b) :: erase x rest := by simp [erase, h]
      rw [he, lookup_cons_if, lookup_cons_if, ih]

theorem lookup_map {α β : Type} (f : α → β) (xs : List (String × α)) (x : String) :
    (xs.map fun p => (p.1, f p.2)).lookup x = (xs.lookup x).map f := by
  induction xs with
  | nil => rfl
  | cons p rest ih =>
    obtain ⟨y, b⟩ := p
    rw [List.map_cons, lookup_cons_if, lookup_cons_if, ih]
    by_cases h : x = y
    · rw [if_pos h, if_pos h, Option.map_some]
    · rw [if_neg h, if_neg h]

theorem lookup_eraseP_of_ne {α : Type} {x z : String} (xs : List (String × α)) (hz : z ≠ x) :
    (xs.eraseP (·.1 = x)).lookup z = xs.lookup z := by
  induction xs with
  | nil => rfl
  | cons p rest ih =>
    obtain ⟨y, b⟩ := p
    by_cases h : y = x
    · have he : ((y, b) :: rest).eraseP (·.1 = x) = rest := by simp [h]
      rw [he, lookup_cons_if, if_neg (h ▸ hz)]
    · have he : ((y, b) :: rest).eraseP (·.1 = x) = (y, b) :: rest.eraseP (·.1 = x) := by simp [h]
      rw [he, lookup_cons_if, lookup_cons_if, ih]

end TraitCalculus.Assoc
