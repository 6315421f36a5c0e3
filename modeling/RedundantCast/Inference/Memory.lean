import RedundantCast.Inference.Basic

/-!
# Memory of an analysis

What has been found out during a pass: the types of nodes, and whether
functions write to their parameters.
-/

namespace RedundantCast

/-- Values by key, each key once. -/
structure Memo (κ ν : Type) where
  entries : List (κ × ν)
  deriving Repr, Inhabited

namespace Memo

variable {κ ν : Type} [DecidableEq κ]

def empty : Memo κ ν := ⟨[]⟩

def find? (m : Memo κ ν) (k : κ) : Option ν :=
  m.entries.lookup k

/-- Give a key a value, in place of the one it may have. -/
def insert (m : Memo κ ν) (k : κ) (v : ν) : Memo κ ν :=
  ⟨(k, v) :: m.entries.filter fun e => e.1 ≠ k⟩

@[simp] theorem find?_empty (k : κ) : (empty : Memo κ ν).find? k = none := rfl

@[simp] theorem find?_insert_self (m : Memo κ ν) (k : κ) (v : ν) :
    (m.insert k v).find? k = some v := by
  simp [find?, insert]

theorem lookup_filter_ne {k k' : κ} (h : k' ≠ k) (entries : List (κ × ν)) :
    (entries.filter fun e => e.1 ≠ k).lookup k' = entries.lookup k' := by
  induction entries with
  | nil => rfl
  | cons e es ih =>
    by_cases he : e.1 = k
    · have hne : (k' == e.1) = false := by simpa [he] using h
      rw [List.filter_cons_of_neg (by simpa using he), ih, List.lookup_cons, hne]
    · rw [List.filter_cons_of_pos (by simpa using he), List.lookup_cons, List.lookup_cons, ih]

@[simp] theorem find?_insert_of_ne (m : Memo κ ν) {k k' : κ} (h : k' ≠ k) (v : ν) :
    (m.insert k v).find? k' = m.find? k' := by
  have hne : (k' == k) = false := by simpa using h
  simp only [find?, insert, List.lookup_cons, hne]
  exact lookup_filter_ne h m.entries

end Memo

/-- What a pass remembers. -/
structure Memory where
  /-- What is known of the types of nodes. -/
  types : Memo NodeRef Inference
  /-- Whether a function writes to a variable of the given name. -/
  writes : Memo (NodeRef × String) Bool
  deriving Repr, Inhabited

namespace Memory

def empty : Memory := ⟨.empty, .empty⟩

/-- The order of references: by position, the empty one last. -/
def refLe : NodeRef → NodeRef → Bool
  | some a, some b => a ≤ b
  | some _, none => true
  | none, some _ => false
  | none, none => true

/-- The remembered types in the order of their nodes. -/
def sortedTypes (m : Memory) : List (NodeRef × Inference) :=
  m.types.entries.mergeSort fun a b => refLe a.1 b.1

/-- The remembered write scans in the order of their functions, those of one
function by name. -/
def sortedWrites (m : Memory) : List ((NodeRef × String) × Bool) :=
  m.writes.entries.mergeSort fun a b =>
    if a.1.1 = b.1.1 then a.1.2 ≤ b.1.2 else refLe a.1.1 b.1.1

end Memory

end RedundantCast
