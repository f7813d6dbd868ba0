import TraitCalculus.Ty

/-! When two types count as the same: lines, trait bounds and the order of record fields do not
matter, names of bound variables do. -/
namespace TraitCalculus.Ty

mutual

def same : Ty → Ty → Bool
  | name _ x, name _ y => x = y
  | all _ x _ s, all _ y _ t => x = y && s.same t
  | arrow _ a b, arrow _ c d => a.same c && b.same d
  | app _ a b, app _ c d => a.same c && b.same d
  | list _ a, list _ b => a.same b
  | emptyList, emptyList => true
  | record _ fs, record _ gs => sameFields fs gs
  | _, _ => false

/-- Each field has one of the same label and type on the other side, and none is left over. -/
def sameFields : List (String × Ty) → List (String × Ty) → Bool
  | [], gs => gs.isEmpty
  | (label, t) :: fs, gs =>
    match gs.lookup label with
    | none => false
    | some u => t.same u && sameFields fs (gs.eraseP (·.1 = label))

end

end TraitCalculus.Ty
