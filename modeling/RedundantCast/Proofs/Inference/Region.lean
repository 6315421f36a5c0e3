import RedundantCast.Proofs.Inference.Depth
import RedundantCast.Proofs.Inference.Memo
import RedundantCast.Proofs.Tree.Preorder

/-!
# Regions of inference

Inference of a node uses the nodes that operands lead to from it. In a
well-formed tree the regions of the operands of a node are disjoint, and so are
those of the operands of two casts, since no region goes on below a cast. Where
a memory holds nothing about a region, inference answers as if it held nothing
at all.
-/

namespace RedundantCast

namespace Context

/-- Inference of the first node asks for the type of the second. -/
inductive Uses (ctx : Context) : NodeRef → NodeId → Prop where
  | self (id : NodeId) : Uses ctx (some id) id
  | operand {ref operand : NodeRef} {x : NodeId} :
      operand ∈ ctx.operands ref → Uses ctx operand x → Uses ctx ref x

/-- Inference of the two nodes asks for no common node. -/
def Separate (ctx : Context) (a b : NodeRef) : Prop :=
  ∀ x, ctx.Uses a x → ¬ ctx.Uses b x

/-- The memory holds no type of a node that inference asks for. -/
def Untouched (ctx : Context) (ref : NodeRef) (m : Memory) : Prop :=
  ∀ x, ctx.Uses ref x → m.types.find? (some x) = none

variable {ctx : Context} {ref : NodeRef} {m : Memory} {a b x : NodeId}

theorem untouched_empty (ctx : Context) (ref : NodeRef) : ctx.Untouched ref .empty :=
  fun _ _ => rfl

/-! ## Shape of regions -/

theorem Uses.exists_some (h : ctx.Uses ref x) : ∃ id, ref = some id := by
  cases h with
  | self => exact ⟨x, rfl⟩
  | operand hoperand _ =>
      cases ref with
      | none => cases hoperand
      | some id => exact ⟨id, rfl⟩

theorem parent_of_mem_operands (ht : ctx.tree.WellFormed) {c : NodeId}
    (h : some c ∈ ctx.operands (some a)) : ctx.tree.parent (some c) = some a :=
  ht.mem_children_iff.1 (ctx.mem_children_of_mem_operands h)

theorem Uses.under (ht : ctx.tree.WellFormed) (h : ctx.Uses (some a) x) :
    ctx.tree.Under x a := by
  generalize href : some a = ref at h
  induction h generalizing a with
  | self id =>
      obtain rfl := Option.some.inj href
      exact .refl a
  | operand hoperand huses ih =>
      subst href
      obtain ⟨c, rfl⟩ := huses.exists_some
      exact (ih rfl).trans (.of_parent (parent_of_mem_operands ht hoperand))

/-- A node on the way up from a used node, other than that node itself, has
operands. -/
theorem Uses.operands_ne_nil (ht : ctx.tree.WellFormed) (h : ctx.Uses (some a) x)
    (hxb : ctx.tree.Under x b) (hba : ctx.tree.Under b a) (hne : b ≠ x) :
    ctx.operands (some b) ≠ [] := by
  generalize href : some a = ref at h
  induction h generalizing a with
  | self id =>
      obtain rfl := Option.some.inj href
      exact absurd (hba.antisymm hxb ht) hne
  | operand hoperand huses ih =>
      subst href
      obtain ⟨c, rfl⟩ := huses.exists_some
      have hparent := parent_of_mem_operands ht hoperand
      by_cases hab : b = a
      · subst hab
        exact List.ne_nil_of_mem hoperand
      · -- The way from `x` up to `a` passes `c` right before `a`.
        rcases hxb.total (huses.under ht) with hbc | hcb
        · exact ih hxb hbc hne rfl
        · rcases hcb.eq_or_parent with rfl | ⟨p, hp, hpb⟩
          · exact ih hxb (.refl _) hne rfl
          · obtain rfl : a = p := Option.some.inj (hparent.symm.trans hp)
            exact absurd (hba.antisymm hpb ht) hab

theorem pairwise_separate_operands (ht : ctx.tree.WellFormed) (ref : NodeRef) :
    (ctx.operands ref).Pairwise ctx.Separate := by
  cases hform : ctx.tree.form? ref with
  | none =>
      rw [ctx.operands_of_form?_eq_none hform]
      exact .nil
  | some form =>
      cases ref with
      | none => exact .nil
      | some id =>
          have hnodup : form.children.Nodup := by
            have hchildren := ht.nodup_children (p := id)
            rwa [Tree.children, hform] at hchildren
          have hrefs := (List.pairwise_filterMap.1 hnodup).sublist form.operands_sublist
          rw [← ctx.operands_of_form? hform] at hrefs
          apply hrefs.imp_of_mem
          intro left right hleft hright hne x hx hx'
          obtain ⟨c, rfl⟩ := hx.exists_some
          obtain ⟨d, rfl⟩ := hx'.exists_some
          exact Tree.not_under_of_siblings ht (parent_of_mem_operands ht hleft)
            (parent_of_mem_operands ht hright) (hne c rfl d rfl) (hx.under ht) (hx'.under ht)

theorem not_uses_across_cast (ht : ctx.tree.WellFormed) (ha : ctx.tree.isCast a) {c : NodeId}
    (hc : ctx.tree.parent (some c) = some a) (hxc : ctx.tree.Under x c)
    (hab : ctx.tree.Under a b) : ¬ ctx.Uses (some b) x := by
  intro h
  have hlt := ht.lt_of_mem_children (ht.mem_children_iff.2 hc)
  have hne : a ≠ x := Nat.ne_of_gt (Nat.lt_of_le_of_lt (hxc.le ht) hlt)
  exact h.operands_ne_nil ht (hxc.trans (.of_parent hc)) hab hne (ctx.operands_of_isCast ha)

/-- The regions of the operands of two casts are disjoint. -/
theorem separate_of_casts (ht : ctx.tree.WellFormed) (ha : ctx.tree.isCast a)
    (hb : ctx.tree.isCast b) (hne : a ≠ b) {o o' : NodeRef}
    (ho : ∀ c, o = some c → ctx.tree.parent (some c) = some a)
    (ho' : ∀ c, o' = some c → ctx.tree.parent (some c) = some b) : ctx.Separate o o' := by
  intro x hx hx'
  obtain ⟨c, rfl⟩ := hx.exists_some
  obtain ⟨d, rfl⟩ := hx'.exists_some
  have hc := ho c rfl
  have hd := ho' d rfl
  rcases (hx.under ht).total (hx'.under ht) with hcd | hdc
  · rcases hcd.eq_or_parent with rfl | ⟨p, hp, hpd⟩
    · exact hne (Option.some.inj (hc.symm.trans hd))
    · obtain rfl : a = p := Option.some.inj (hc.symm.trans hp)
      exact not_uses_across_cast ht ha hc (hx.under ht) hpd hx'
  · rcases hdc.eq_or_parent with rfl | ⟨p, hp, hpc⟩
    · exact hne (Option.some.inj (hc.symm.trans hd))
    · obtain rfl : b = p := Option.some.inj (hd.symm.trans hp)
      exact not_uses_across_cast ht hb hd (hx'.under ht) hpc hx

/-! ## Inference inside a region -/

theorem find?_inferEach {f : NodeRef → Memory → Inference × Memory} {refs : List NodeRef}
    (hf : ∀ ref ∈ refs, ∀ m, (f ref m).2.types.find? (some x) = m.types.find? (some x))
    (m : Memory) : (inferEach f refs m).2.types.find? (some x) = m.types.find? (some x) := by
  induction refs generalizing m with
  | nil => rfl
  | cons ref refs ih =>
      rw [inferEach_cons]
      exact (ih (fun ref' h => hf ref' (List.mem_cons_of_mem ref h)) _).trans
        (hf ref List.mem_cons_self m)

theorem find?_inferWithin {depth : Nat} (hx : ¬ ctx.Uses ref x) (m : Memory) :
    (ctx.inferWithin depth ref m).2.types.find? (some x) = m.types.find? (some x) := by
  induction depth generalizing ref m with
  | zero => rfl
  | succ depth ih =>
      cases hfind : m.types.find? ref with
      | some answer => rw [inferWithin_of_find? hfind]
      | none =>
          have hne : some x ≠ ref := by
            rintro rfl
            exact hx (.self x)
          rw [inferWithin_succ_of_find?_eq_none hfind]
          simp only [Memo.find?_insert_of_ne _ hne, types_recallScan]
          exact find?_inferEach (fun operand hoperand => ih fun h => hx (.operand hoperand h)) m

/-- The reference to nothing is never given a type. -/
def NothingUnknown (ref : NodeRef) (answer : Inference) : Prop :=
  ref = none → answer = .unknown

theorem sustains_nothingUnknown (ctx : Context) :
    ctx.Sustains (fun _ _ => True) NothingUnknown where
  cutOff _ _ _ := rfl
  operands _ _ _ _ _ := trivial
  rule := by
    rintro ref answers - rfl
    exact ctx.rule_none answers _

theorem inferEach_eq_map {f : NodeRef → Memory → Inference × Memory} {g : NodeRef → Inference}
    {refs : List NodeRef} (hsep : refs.Pairwise ctx.Separate)
    (hanswer : ∀ ref ∈ refs, ∀ m, m.Records ctx.tree NothingUnknown → ctx.Untouched ref m →
      (f ref m).1 = g ref)
    (hrecords : ∀ ref m, m.Records ctx.tree NothingUnknown →
      (f ref m).2.Records ctx.tree NothingUnknown)
    (hframe : ∀ ref x m, ¬ ctx.Uses ref x →
      (f ref m).2.types.find? (some x) = m.types.find? (some x))
    (hm : m.Records ctx.tree NothingUnknown) (hfree : ∀ ref ∈ refs, ctx.Untouched ref m) :
    (inferEach f refs m).1 = refs.map g := by
  induction refs generalizing m with
  | nil => rfl
  | cons ref refs ih =>
      obtain ⟨hhead, htail⟩ := List.pairwise_cons.1 hsep
      have hfree' : ∀ ref' ∈ refs, ctx.Untouched ref' (f ref m).2 := by
        intro ref' href' x hx
        rw [hframe ref x m fun h => hhead ref' href' x h hx]
        exact hfree ref' (List.mem_cons_of_mem ref href') x hx
      rw [inferEach_cons, List.map_cons,
        hanswer ref List.mem_cons_self m hm (hfree ref List.mem_cons_self),
        ih htail (fun ref' h => hanswer ref' (List.mem_cons_of_mem ref h)) (hrecords ref m hm)
          hfree']

theorem eq_none_of_find?_eq_some (hfree : ctx.Untouched ref m) {answer : Inference}
    (hfind : m.types.find? ref = some answer) : ref = none := by
  cases ref with
  | none => rfl
  | some id =>
      rw [hfree id (.self id)] at hfind
      cases hfind

/-- Inference in an untouched region is inference without a memory. -/
theorem inferWithin_eq_inferFresh (ht : ctx.tree.WellFormed) {depth : Nat}
    (hm : m.Records ctx.tree NothingUnknown) (hfree : ctx.Untouched ref m) :
    (ctx.inferWithin depth ref m).1 = ctx.inferFresh depth ref := by
  induction depth generalizing ref m with
  | zero =>
      cases hfind : m.types.find? ref with
      | some answer =>
          rw [inferWithin_of_find? hfind]
          exact hm.types ref answer hfind (eq_none_of_find?_eq_some hfree hfind)
      | none => rw [inferWithin_zero_of_find?_eq_none hfind, inferFresh]
  | succ depth ih =>
      cases hfind : m.types.find? ref with
      | some answer =>
          obtain rfl := eq_none_of_find?_eq_some hfree hfind
          rw [inferWithin_of_find? hfind]
          exact hm.types none answer hfind rfl
      | none =>
          have hsustains := sustains_nothingUnknown ctx
          -- What is remembered for one operand lies outside the regions of the others.
          have hanswers : (inferEach (ctx.inferWithin depth) (ctx.operands ref) m).1 =
              (ctx.operands ref).map (ctx.inferFresh depth) :=
            inferEach_eq_map (pairwise_separate_operands ht ref)
              (fun operand _ m hm hfree => ih hm hfree)
              (fun operand m hm => (hsustains.inferWithin trivial hm).2)
              (fun operand x m hx => find?_inferWithin hx m) hm
              (fun operand hoperand x hx => hfree x (.operand hoperand hx))
          have heach : (inferEach (ctx.inferWithin depth) (ctx.operands ref) m).2.Records
              ctx.tree NothingUnknown :=
            (inferEach_induct (f := ctx.inferWithin depth)
              (fun _ _ _ hm => hsustains.inferWithin trivial hm) hm).2
          rw [inferWithin_succ_of_find?_eq_none hfind]
          simp only [hanswers, recallScan_fst heach ref]
          rfl

theorem inferWithin_empty (ht : ctx.tree.WellFormed) (depth : Nat) (ref : NodeRef) :
    (ctx.inferWithin depth ref .empty).1 = ctx.inferFresh depth ref :=
  inferWithin_eq_inferFresh ht (.empty _ _) (untouched_empty ctx ref)

end Context

end RedundantCast
