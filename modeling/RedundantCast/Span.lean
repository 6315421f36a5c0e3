/-!
# Source spans

Half-open ranges of byte offsets in one file.
-/

namespace RedundantCast

/-- The bytes from `start` up to, and without, `stop`. -/
structure Span where
  start : Nat
  stop : Nat
  deriving DecidableEq, Repr, Inhabited

namespace Span

/-- The span of a node that has no place in the source. -/
def dummy : Span := ⟨0, 0⟩

def length (s : Span) : Nat :=
  s.stop - s.start

def isEmpty (s : Span) : Bool :=
  s.start == s.stop

/-- Whether `other` lies completely inside `s`. -/
def encloses (s other : Span) : Bool :=
  s.start ≤ other.start && other.stop ≤ s.stop

def contains (s : Span) (offset : Nat) : Bool :=
  s.start ≤ offset && offset < s.stop

/-- The smallest span that encloses both. -/
def cover (a b : Span) : Span where
  start := min a.start b.start
  stop := max a.stop b.stop

/-- Spans are ordered by where they start, then by where they stop. -/
instance : Ord Span where
  compare a b := (compare a.start b.start).then (compare a.stop b.stop)

@[simp] theorem start_cover (a b : Span) : (a.cover b).start = min a.start b.start := rfl

@[simp] theorem stop_cover (a b : Span) : (a.cover b).stop = max a.stop b.stop := rfl

theorem encloses_iff {s other : Span} :
    s.encloses other = true ↔ s.start ≤ other.start ∧ other.stop ≤ s.stop := by
  simp [encloses]

theorem encloses_refl (s : Span) : s.encloses s :=
  encloses_iff.2 ⟨Nat.le_refl _, Nat.le_refl _⟩

theorem encloses_trans {a b c : Span} (hab : a.encloses b) (hbc : b.encloses c) :
    a.encloses c := by
  rw [encloses_iff] at *
  exact ⟨Nat.le_trans hab.1 hbc.1, Nat.le_trans hbc.2 hab.2⟩

theorem encloses_cover_left (a b : Span) : (a.cover b).encloses a :=
  encloses_iff.2 ⟨Nat.min_le_left _ _, Nat.le_max_left _ _⟩

end Span

end RedundantCast
