import RedundantCast.Proofs.Ty.Spelling

/-!
# The semilattice of types

`union2` is the join of a semilattice of normalized types, up to the spellings of
class names, with `mixed` at the top. Every law follows from what the members of a
union are.
-/

namespace RedundantCast

namespace Ty

section

variable {a b c : Ty} (ha : a.isNormalized = true)
include ha

theorem union2_comm (hb : b.isNormalized = true) : (union2 a b == union2 b a) = true := by
  apply unionOf_beq_of_same_members <;> simp [ha, hb, or_comm]

theorem union2_assoc (hb : b.isNormalized = true) (hc : c.isNormalized = true) :
    (union2 (union2 a b) c == union2 a (union2 b c)) = true := by
  have hleft : union2 (union2 a b) c = unionOf [a, b, c] :=
    unionOf_unionOf_cons (isNormalized_pair ha hb) (List.forall_mem_singleton.2 hc)
      (List.cons_ne_nil a [b])
  have hright : union2 a (union2 b c) = unionOf [a, b, c] :=
    unionOf_append_unionOf (List.forall_mem_singleton.2 ha) (isNormalized_pair hb hc)
      (List.forall_mem_nil _) (List.cons_ne_nil b [c])
  rw [hleft, hright]
  exact BEq.rfl

theorem union2_self : (union2 a a == a) = true := by
  by_cases hmixed : a = .mixed
  · subst hmixed
    rfl
  · apply beq_of_hasMember_eq (isNormalized_union2 ha ha) ha
    intro m
    have hmixed' : Ty.mixed ∉ [a, a] := by simpa using Ne.symm hmixed
    rw [Bool.eq_iff_iff, union2,
      hasMember_unionOf (isNormalized_pair ha ha) (List.cons_ne_nil a [a]) hmixed']
    simp

end

theorem union2_mixed (a : Ty) : union2 a .mixed = .mixed := unionOf_of_mixed (by simp)

theorem mixed_union2 (a : Ty) : union2 .mixed a = .mixed := unionOf_of_mixed (by simp)

/-- The union of normalized types is normalized. It is `mixed` if one of them
is, and otherwise has their members, each once. So it depends on the members
alone, `union2` is the join of a semilattice with `mixed` at the top, and a
normalized type is the union of its members and determined by them. -/
theorem unionOf_canonical {ts us : List Ty} (hne : ts ≠ []) (hne' : us ≠ [])
    (hts : ∀ t ∈ ts, t.isNormalized = true) (hus : ∀ u ∈ us, u.isNormalized = true) {a b c : Ty}
    (ha : a.isNormalized = true) (hb : b.isNormalized = true) (hc : c.isNormalized = true) :
    (unionOf ts).isNormalized = true ∧
      (unionOf ts = .mixed ↔ .mixed ∈ ts) ∧
      (.mixed ∉ ts →
        (∀ m, (unionOf ts).hasMember m = true ↔ ∃ t ∈ ts, t.hasMember m = true) ∧
          (unionOf ts).members.Pairwise fun m n => (m == n) = false) ∧
      ((∀ m, (∃ t ∈ ts, t.hasMember m = true) ↔ ∃ u ∈ us, u.hasMember m = true) →
        (unionOf ts == unionOf us) = true) ∧
      (union2 a b == union2 b a) = true ∧
      (union2 (union2 a b) c == union2 a (union2 b c)) = true ∧
      (union2 a a == a) = true ∧
      union2 a .mixed = .mixed ∧ union2 .mixed a = .mixed ∧
      unionOf a.members = a ∧
      ((a == b) = true ↔ ∀ m, a.hasMember m = b.hasMember m) := by
  refine ⟨isNormalized_unionOf hts, unionOf_eq_mixed_iff hts hne, ?_, ?_, union2_comm ha hb,
    union2_assoc ha hb hc, union2_self ha, union2_mixed a, mixed_union2 a, unionOf_members ha, ?_⟩
  · intro hmixed
    exact ⟨hasMember_unionOf hts hne hmixed, pairwise_members_ne (isNormalized_unionOf hts)⟩
  · exact unionOf_beq_of_same_members hts hus hne hne'
  · exact ⟨hasMember_eq_of_beq, beq_of_hasMember_eq ha hb⟩

/-- `int|null` and `\Foo` against `foo`, `null` and `null|int`: the same members
in another order and grouping, one of them twice and one spelled differently. -/
theorem unionOf_canonical_spellings :
    let ts := [union [.null, .int], ofClass "\\Foo"]
    let us := [ofClass "foo", .null, union [.null, .int]]
    (∀ t ∈ ts, t.isNormalized = true) ∧ (∀ u ∈ us, u.isNormalized = true) ∧
      (unionOf ts).members.length = 3 ∧ (unionOf ts == unionOf us) = true := by
  intro ts us
  have hts : ∀ t ∈ ts, t.isNormalized = true := by decide
  have hus : ∀ u ∈ us, u.isNormalized = true := by decide
  have hfoo : (ofClass "\\Foo" == ofClass "foo") = true := by decide
  have hsame : ∀ m, (∃ t ∈ ts, t.hasMember m = true) ↔ ∃ u ∈ us, u.hasMember m = true := by
    intro m
    have hspelling : ∀ text, (ofClass text).hasMember m = (m == ofClass text) :=
      fun text => by simp [hasMember, members, ofClass]
    have hnull : Ty.null.hasMember m = (m == .null) := by simp [hasMember, members]
    have hunion : (union [.null, .int]).hasMember m = (m == .null || m == .int) := by
      simp [hasMember]
    simp only [ts, us, List.mem_cons, List.not_mem_nil, or_false, exists_eq_or_imp, exists_eq_left,
      hspelling, hnull, hunion, BEq.congr_right hfoo, Bool.or_eq_true]
    grind
  obtain ⟨-, -, -, hequal, -⟩ := unionOf_canonical (List.cons_ne_nil _ _) (List.cons_ne_nil _ _) hts
    hus (a := .int) (b := .int) (c := .int) rfl rfl rfl
  exact ⟨hts, hus, by decide, hequal hsame⟩

end Ty

end RedundantCast
