import RedundantCast.Proofs.Inference.Memo

/-!
# Types of variables

What the type of a variable depends on: the tree, which sources are trusted,
and the declarations of its name.
-/

namespace RedundantCast

section Answers

variable {α β : Type}

theorem exists_of_bind_eq_ok {x : Except Failure α} {f : α → Except Failure β} {b : β}
    (h : x >>= f = .ok b) : ∃ a, x = .ok a ∧ f a = .ok b := by
  cases x with
  | error failure => cases h
  | ok a => exact ⟨a, rfl, h⟩

theorem resolved_eq_ok_iff {x : Option α} {a : α} : resolved x = .ok a ↔ x = some a := by
  cases x <;> simp [resolved]

theorem answered_eq_ok_iff {x : Except ProviderError α} {a : α} :
    answered x = .ok a ↔ x = .ok a := by
  cases x <;> simp [answered]

end Answers

namespace Context

variable {ctx ctx' : Context} {name : String} {v : NodeId} {ref : NodeRef}

theorem lookupWithin_congr (htree : ctx.tree = ctx'.tree)
    (h : ∀ scope, ctx.provider.variableTypes scope name = ctx'.provider.variableTypes scope name)
    (n : Nat) (ref : NodeRef) :
    ctx.lookupWithin name n ref = ctx'.lookupWithin name n ref := by
  induction n generalizing ref with
  | zero => rfl
  | succ n ih =>
      have hcontinues : ctx.continuesOutward = ctx'.continuesOutward := by
        unfold continuesOutward
        rw [htree]
      simp only [lookupWithin_succ, htree, h, ih, hcontinues]

theorem trustedType_congr
    (htrust : ctx.options.trustPropertyDocs = ctx'.options.trustPropertyDocs) :
    ctx.trustedType = ctx'.trustedType := by
  funext d
  unfold trustedType trusts
  rw [htrust]

theorem thisType_congr (htree : ctx.tree = ctx'.tree) : ctx.thisType ref = ctx'.thisType ref := by
  unfold thisType enclosingClassName?
  rw [htree]

theorem written_congr (ctx ctx' : Context) (htree : ctx.tree = ctx'.tree)
    (hform : ctx.tree.form? ref = some (.var name))
    (h : ∀ scope, ctx.provider.variableTypes scope name =
      ctx'.provider.variableTypes scope name) : ctx.written ref = ctx'.written ref := by
  have hlookup : ctx.lookup name ref = ctx'.lookup name ref := lookupWithin_congr htree h _ _
  have hform' := htree ▸ hform
  simp only [written, scanned?, hform', Option.bind_some, Form.var?, hlookup, htree]

theorem variableType_congr (ctx ctx' : Context) (htree : ctx.tree = ctx'.tree)
    (htrust : ctx.options.trustPropertyDocs = ctx'.options.trustPropertyDocs)
    (h : ∀ scope, ctx.provider.variableTypes scope name = ctx'.provider.variableTypes scope name)
    (ref : NodeRef) (written : Bool) :
    ctx.variableType ref name written = ctx'.variableType ref name written := by
  have hlookup : ctx.lookup name ref = ctx'.lookup name ref := lookupWithin_congr htree h _ _
  simp only [variableType, thisType_congr htree, hlookup, trustedType_congr htrust]

/-- A variable has no operands, so one level of inference settles its type. -/
theorem infer_variable (hform : ctx.tree.form? (some v) = some (.var name)) :
    (ctx.infer (some v) .empty).1 =
      if ctx.options.depthLimit = 0 then .unknown
      else .ofExcept (ctx.variableType (some v) name (ctx.written (some v))) := by
  rw [infer]
  have hfind : Memory.empty.types.find? (some v) = none := rfl
  cases ctx.options.depthLimit with
  | zero => rw [inferWithin_zero_of_find?_eq_none hfind, if_pos rfl]
  | succ depth =>
      have hoperands : ctx.operands (some v) = [] := ctx.operands_of_form? hform
      have hscan : (ctx.recallScan (some v) .empty).1 = ctx.written (some v) :=
        recallScan_fst (.empty _ fun _ _ => True) (some v)
      rw [inferWithin_succ_of_find?_eq_none hfind, hoperands, inferEach_nil,
        if_neg (Nat.succ_ne_zero depth)]
      dsimp only
      rw [hscan, rule_of_form? ctx hform]
      rfl

end Context

end RedundantCast
