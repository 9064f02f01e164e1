/-! Places in a tree of files. A place that is nearer to the root comes before one that is farther from it. -/
namespace ChunkRelay

/-- A place in a tree: the names on the way to it from the root. -/
@[ext] structure Place where
  names : Array String
  deriving DecidableEq

namespace Place

def root : Place := ⟨#[]⟩

def depth (p : Place) : Nat := p.names.size

def child (p : Place) (name : String) : Place := ⟨p.names.push name⟩

/-- The root is its own parent. -/
def parent (p : Place) : Place := ⟨p.names.pop⟩

/-- The last name on the way. -/
def name? (p : Place) : Option String := p.names.back?

/-- The places on the way to a place, which comes last. The root is not among them. -/
def onWay (p : Place) : List Place := (List.range p.depth).map fun i => ⟨p.names.extract 0 (i + 1)⟩

/-- Whether a place is `p` or lies below it. -/
def contains (p q : Place) : Bool := p.names.isPrefixOf q.names

@[simp] theorem parent_child (p : Place) (w : String) : (p.child w).parent = p := by simp [parent, child]

@[simp] theorem name?_child (p : Place) (w : String) : (p.child w).name? = some w := by simp [name?, child]

theorem child_inj {p q : Place} {v w : String} (h : p.child v = q.child w) : p = q ∧ v = w := by
  have hp := congrArg parent h
  have hv := congrArg name? h
  simp only [parent_child, name?_child, Option.some.injEq] at hp hv
  exact ⟨hp, hv⟩

/-! Order. -/

instance : LT Place := ⟨fun a b => a.depth < b.depth ∨ a.depth = b.depth ∧ a.names.toList < b.names.toList⟩

instance decidableLT : DecidableLT Place := fun a b =>
  inferInstanceAs (Decidable (a.depth < b.depth ∨ a.depth = b.depth ∧ a.names.toList < b.names.toList))

theorem lt_trans {a b c : Place} (hab : a < b) (hbc : b < c) : a < c := by
  rcases hab with hab | ⟨eab, hab⟩ <;> rcases hbc with hbc | ⟨ebc, hbc⟩
  · exact .inl (Nat.lt_trans hab hbc)
  · exact .inl (ebc ▸ hab)
  · exact .inl (eab ▸ hbc)
  · exact .inr ⟨eab.trans ebc, List.lt_trans hab hbc⟩

instance ltTrans : Trans (α := Place) (· < ·) (· < ·) (· < ·) := ⟨lt_trans⟩

end Place
end ChunkRelay
