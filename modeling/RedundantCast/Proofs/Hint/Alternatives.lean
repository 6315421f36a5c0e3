import Mathlib.Data.List.Infix
import RedundantCast.Proofs.Text.Blank
import RedundantCast.Ty.Hint

/-!
# Alternatives of a hint

The bars that divide a hint are those at bracket depth zero. A bar behind a text
of depth zero divides the alternatives before it from those after it, and the
blanks around a hint are blanks around its first and its last alternative.
-/

namespace RedundantCast

namespace Hint

open Text

/-! ## Bracket depth -/

def isOpening (c : Char) : Bool :=
  c == '<' || c == '(' || c == '\x7b'

def isClosing (c : Char) : Bool :=
  c == '>' || c == ')' || c == '\x7d'

/-- The number of opening brackets less the number of closing ones. -/
def depth (cs : List Char) : Int :=
  (cs.countP isOpening : Int) - cs.countP isClosing

/-- As many brackets are closed as are opened, and none is closed before it is
opened. Brackets of different shapes are not told apart. -/
structure Balanced (cs : List Char) : Prop where
  depth_eq : depth cs = 0
  depth_nonneg : ∀ p, p <+: cs → 0 ≤ depth p

instance (cs : List Char) : Decidable (Balanced cs) :=
  decidable_of_iff (depth cs = 0 ∧ ∀ p ∈ cs.inits, 0 ≤ depth p)
    ⟨fun h => ⟨h.1, fun p hp => h.2 p ((List.mem_inits p cs).2 hp)⟩,
      fun h => ⟨h.depth_eq, fun p hp => h.depth_nonneg p ((List.mem_inits p cs).1 hp)⟩⟩

variable {c : Char} {d : Int} {a b cs ds : List Char}

@[simp] theorem depth_nil : depth [] = 0 := rfl

theorem depth_append (a b : List Char) : depth (a ++ b) = depth a + depth b := by
  simp only [depth, List.countP_append]
  omega

theorem depth_singleton (c : Char) : depth [c] = depthStep c := by
  have hdisjoint : isOpening c = true → isClosing c = false := by
    intro h
    simp only [isOpening, Bool.or_eq_true, beq_iff_eq] at h
    rcases h with (rfl | rfl) | rfl <;> decide
  have hopening : (c = '<' || c = '(' || c = '\x7b') = isOpening c := by
    simp [isOpening, Bool.beq_eq_decide_eq]
  have hclosing : (c = '>' || c = ')' || c = '\x7d') = isClosing c := by
    simp [isClosing, Bool.beq_eq_decide_eq]
  rw [depthStep, hopening, hclosing, depth, List.countP_singleton, List.countP_singleton]
  cases ho : isOpening c with
  | true => simp [hdisjoint ho]
  | false => cases isClosing c <;> simp

@[simp] theorem depth_cons (c : Char) (cs : List Char) : depth (c :: cs) = depthStep c + depth cs := by
  rw [← depth_singleton, ← depth_append, List.singleton_append]

theorem depth_parenthesized (a : List Char) : depth ('(' :: a ++ [')']) = depth a := by
  have hopening : depthStep '(' = 1 := by decide
  have hclosing : depth [')'] = -1 := by decide
  rw [List.cons_append, depth_cons, depth_append, hopening, hclosing]
  omega

/-- A test that no bracket passes leaves the depth as it is. -/
theorem depthStep_eq_zero {p : Char → Bool}
    (hp : ['<', '(', '\x7b', '>', ')', '\x7d'].any p = false) (h : p c) : depthStep c = 0 := by
  have hne : ∀ x ∈ ['<', '(', '\x7b', '>', ')', '\x7d'], c ≠ x := by
    rintro x hx rfl
    exact List.any_eq_false.1 hp c hx h
  rw [depthStep]
  simp [hne]

theorem depth_eq_zero (h : ∀ c ∈ a, depthStep c = 0) : depth a = 0 := by
  induction a with
  | nil => rfl
  | cons c a ih =>
      obtain ⟨hc, ha⟩ := List.forall_mem_cons.1 h
      rw [depth_cons, hc, ih ha, Int.add_zero]

/-! ## Dividing bars -/

theorem alternativesFrom_bar (cs : List Char) :
    alternativesFrom 0 ('|' :: cs) = [] :: alternativesFrom 0 cs := by
  rw [alternativesFrom, if_pos (by decide)]

theorem alternativesFrom_cons (h : ¬ (c = '|' ∧ d = 0)) (cs : List Char) :
    alternativesFrom d (c :: cs) = (alternativesFrom (d + depthStep c) cs).modifyHead (c :: ·) := by
  rw [alternativesFrom, if_neg (by simpa using h)]
  cases hs : alternativesFrom (d + depthStep c) cs with
  | nil => exact absurd hs (alternativesFrom_ne_nil _ cs)
  | cons part parts => rfl

theorem alternativesFrom_append_bar (h : d + depth a = 0) (b : List Char) :
    alternativesFrom d (a ++ '|' :: b) = alternativesFrom d a ++ alternatives b := by
  induction a generalizing d with
  | nil =>
      obtain rfl : d = 0 := by simpa using h
      exact alternativesFrom_bar b
  | cons c a ih =>
      rw [depth_cons, ← Int.add_assoc] at h
      have hrest := ih h
      rw [List.cons_append]
      by_cases hbar : c = '|' ∧ d = 0
      · obtain ⟨rfl, rfl⟩ := hbar
        rw [alternativesFrom_bar, alternativesFrom_bar, List.cons_append]
        exact congrArg ([] :: ·) hrest
      · rw [alternativesFrom_cons hbar, alternativesFrom_cons hbar, hrest]
        obtain ⟨part, parts, hparts⟩ :=
          List.exists_cons_of_ne_nil (alternativesFrom_ne_nil (d + depthStep c) a)
        rw [hparts]
        rfl

theorem alternatives_append_bar (h : depth a = 0) (b : List Char) :
    alternatives (a ++ '|' :: b) = alternatives a ++ alternatives b :=
  alternativesFrom_append_bar (by simpa using h) b

/-- A text without a dividing bar belongs to the first alternative. -/
theorem alternativesFrom_append (h : hasBarFrom d a = false) (b : List Char) :
    alternativesFrom d (a ++ b) = (alternativesFrom (d + depth a) b).modifyHead (a ++ ·) := by
  induction a generalizing d with
  | nil =>
      obtain ⟨part, parts, hparts⟩ := List.exists_cons_of_ne_nil (alternativesFrom_ne_nil d b)
      simp [hparts]
  | cons c a ih =>
      obtain ⟨hbar, ha⟩ := Bool.or_eq_false_iff.1 h
      have hbar' : ¬ (c = '|' ∧ d = 0) := by simpa using hbar
      rw [List.cons_append, alternativesFrom_cons hbar', ih ha, depth_cons, ← Int.add_assoc]
      obtain ⟨part, parts, hparts⟩ :=
        List.exists_cons_of_ne_nil (alternativesFrom_ne_nil (d + depthStep c + depth a) b)
      rw [hparts]
      rfl

theorem alternatives_eq_singleton (h : isUnionHint a = false) : alternatives a = [a] := by
  have happend := alternativesFrom_append h []
  simpa [alternatives] using happend

theorem hasBarFrom_append (d : Int) (a b : List Char) :
    hasBarFrom d (a ++ b) = (hasBarFrom d a || hasBarFrom (d + depth a) b) := by
  induction a generalizing d with
  | nil => simp [hasBarFrom]
  | cons c a ih =>
      rw [List.cons_append, hasBarFrom, hasBarFrom, ih, depth_cons, Bool.or_assoc, Int.add_assoc]

/-- Where the depth stays above zero, no bar divides. -/
theorem hasBarFrom_eq_false (h : ∀ p, p <+: a → 0 < d + depth p) : hasBarFrom d a = false := by
  induction a generalizing d with
  | nil => rfl
  | cons c a ih =>
      have hd : 0 < d := by simpa using h [] (List.nil_prefix)
      have hrest : hasBarFrom (d + depthStep c) a = false := by
        apply ih
        intro p hp
        have hcons := h (c :: p) ((List.cons_prefix_cons).2 ⟨rfl, hp⟩)
        rw [depth_cons] at hcons
        omega
      have hne : (d == 0) = false := by
        rw [beq_eq_false_iff_ne]
        omega
      rw [hasBarFrom, hrest, hne, Bool.and_false, Bool.or_false]

theorem isUnionHint_of_notMem (h : '|' ∉ a) : isUnionHint a = false := by
  have hbar : ∀ d, hasBarFrom d a = false := by
    induction a with
    | nil => exact fun d => rfl
    | cons c a ih =>
        obtain ⟨hc, ha⟩ := not_or.1 (mt List.mem_cons.2 h)
        intro d
        rw [hasBarFrom, ih ha, beq_eq_false_iff_ne.2 (Ne.symm hc), Bool.false_and, Bool.or_false]
  exact hbar 0

theorem Balanced.isUnionHint_parenthesized (h : Balanced a) :
    isUnionHint ('(' :: a ++ [')']) = false := by
  have hinner : hasBarFrom 1 a = false := by
    apply hasBarFrom_eq_false
    intro p hp
    have hnonneg := h.depth_nonneg p hp
    omega
  have hopening : depthStep '(' = 1 := by decide
  rw [isUnionHint, List.cons_append, hasBarFrom, hopening, hasBarFrom_append, Int.zero_add, hinner]
  simp [hasBarFrom]

/-! ## Blanks -/

theorem depthStep_of_isBlank (h : isBlank c) : depthStep c = 0 :=
  depthStep_eq_zero (p := isBlank) (by decide) h

theorem not_bar_of_isBlank (h : isBlank c) (d : Int) : ¬ (c = '|' ∧ d = 0) := by
  rintro ⟨rfl, -⟩
  cases h

theorem map_trim_alternatives_cons (h : isBlank c) (cs : List Char) :
    (alternatives (c :: cs)).map trim = (alternatives cs).map trim := by
  obtain ⟨part, parts, hparts⟩ := List.exists_cons_of_ne_nil (alternativesFrom_ne_nil 0 cs)
  rw [alternatives, alternatives, alternativesFrom_cons (not_bar_of_isBlank h 0),
    depthStep_of_isBlank h, Int.add_zero, hparts, List.modifyHead_cons, List.map_cons,
    List.map_cons, trim_cons_of_isBlank h]

theorem map_trimEnd_alternativesFrom_concat (h : isBlank c) (cs : List Char) :
    (alternativesFrom d (cs ++ [c])).map trimEnd = (alternativesFrom d cs).map trimEnd := by
  induction cs generalizing d with
  | nil =>
      have hblank : trimEnd [c] = [] := trimEnd_concat_of_isBlank h []
      rw [List.nil_append, alternativesFrom_cons (not_bar_of_isBlank h d)]
      simp [hblank]
  | cons x cs ih =>
      rw [List.cons_append]
      by_cases hbar : x = '|' ∧ d = 0
      · obtain ⟨rfl, rfl⟩ := hbar
        rw [alternativesFrom_bar, alternativesFrom_bar, List.map_cons, List.map_cons, ih]
      · rw [alternativesFrom_cons hbar, alternativesFrom_cons hbar]
        -- The blank is at the end of the last part, which may be the part that `x` goes to.
        have hrest := ih (d := d + depthStep x)
        obtain ⟨p, ps, hps⟩ := List.exists_cons_of_ne_nil
          (alternativesFrom_ne_nil (d + depthStep x) (cs ++ [c]))
        obtain ⟨q, qs, hqs⟩ := List.exists_cons_of_ne_nil
          (alternativesFrom_ne_nil (d + depthStep x) cs)
        rw [hps, hqs, List.map_cons, List.map_cons] at hrest
        obtain ⟨hhead, htail⟩ := List.cons.inj hrest
        rw [hps, hqs, List.modifyHead_cons, List.modifyHead_cons, List.map_cons, List.map_cons,
          htail, ← trimEnd_cons_trimEnd x p, hhead, trimEnd_cons_trimEnd]

theorem map_trim_alternatives_concat (h : isBlank c) (cs : List Char) :
    (alternatives (cs ++ [c])).map trim = (alternatives cs).map trim := by
  have hboth : trimStart ∘ trimEnd = trim := funext trimStart_trimEnd
  have hends := congrArg (List.map trimStart) (map_trimEnd_alternativesFrom_concat (d := 0) h cs)
  rwa [List.map_map, List.map_map, hboth] at hends

/-- Up to the blanks around them, a hint has the alternatives that it has without
the blanks around it. -/
theorem map_trim_alternatives_trim (cs : List Char) :
    (alternatives (trim cs)).map trim = (alternatives cs).map trim := by
  have hend : ∀ cs, (alternatives (trimEnd cs)).map trim = (alternatives cs).map trim := by
    intro cs
    induction cs using List.reverseRecOn with
    | nil => rfl
    | append_singleton cs c ih =>
        cases hc : isBlank c with
        | true => rw [trimEnd_concat_of_isBlank hc, map_trim_alternatives_concat hc, ih]
        | false => rw [trimEnd_append hc, trimEnd_nil]
  rw [trim, hend]
  induction cs with
  | nil => rfl
  | cons c cs ih =>
      cases hc : isBlank c with
      | true => rw [trimStart_cons_of_isBlank hc, map_trim_alternatives_cons hc, ih]
      | false => rw [trimStart_cons_of_not_isBlank hc]

end Hint

end RedundantCast
