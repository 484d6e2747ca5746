import QuerySheet.Proofs.Sql.Clauses

/-!
# Cutting off windows

A compilation whose windows are cut off at some depth approximates the one where they may be nested
deeper: it is cut off, or has the same outcome.

* `Approximates` and `Uncut` are properties of all that is compiled, if they are ones of its
  windows. A part without running sums does not look at its window;
* `endsWith_of_not_endless`: so the recursion of a compilation that is not cut off ends;
* `not_endless_of_not_loops`: none is cut off whose columns or orders are without running sums.
-/

namespace QuerySheet

namespace Sql

open Compile (Holds)

variable {α : Type} {m m' m'' : Compile α} {orders : Option (List Json)} {s : Scope} {l l' : Ledger}

/-- Where these orders are in scope, the first compilation is cut off in a window, or has the
    outcome of the second. -/
def Approximates (orders : Option (List Json)) (α : Type) (m m' : Compile α) : Prop :=
  ∀ s l, s.orders = orders → m.Fails s l .endlessWindow ∨ m.outcome s l = m'.outcome s l

/-- Where these orders are in scope, a compilation is not cut off. -/
def Uncut (orders : Option (List Json)) (α : Type) (m _ : Compile α) : Prop :=
  ∀ s l, s.orders = orders → ¬ m.Fails s l .endlessWindow

/-! ## 1. Approximations -/

theorem Approximates.refl (orders : Option (List Json)) (m : Compile α) :
    Approximates orders α m m :=
  fun _ _ _ => .inr rfl

theorem Approximates.trans (h : Approximates orders α m m') (h' : Approximates orders α m' m'') :
    Approximates orders α m m'' := by
  intro s l hs
  rcases h s l hs with hcut | heq
  · exact .inl hcut
  · rcases h' s l hs with hcut | heq'
    · exact .inl (hcut.of_outcome heq.symm)
    · exact .inr (heq.trans heq')

theorem Approximates.outcome_eq (h : Approximates orders α m m') (hs : s.orders = orders)
    (hm : ¬ m.Fails s l .endlessWindow) : m.outcome s l = m'.outcome s l :=
  (h s l hs).resolve_left hm

theorem approximates_closed (orders : Option (List Json)) :
    Compile.Closed (Approximates orders) where
  pure a := .refl orders _
  fail cause _ := .refl orders _
  read := .refl orders _
  get := .refl orders _
  bind hm hf s l hs := by
    rcases hm s l hs with hcut | heq
    · exact .inl (Compile.fails_bind.mpr (.inl hcut))
    · rw [Compile.outcome_bind, Compile.outcome_bind, ← heq]
      split
      · rename_i a l₁ hyields
        rcases hf a s l₁ hs with hcut | heq'
        · exact .inl (Compile.fails_bind.mpr (.inr ⟨a, l₁, hyields, hcut⟩))
        · exact .inr heq'
      · exact .inr rfl
  within kind args m m' hm s l hs := by
    rcases hm { s with frames := kind :: s.frames } l hs with hcut | heq
    · exact .inl (Compile.fails_within.mpr hcut)
    · rw [Compile.outcome_within, Compile.outcome_within, heq]
      exact .inr rfl

theorem approximates_steps (orders : Option (List Json)) :
    Steps Part.AnyName (Approximates orders) where
  toClosed := approximates_closed orders
  withField _ h s l hs := h { s with field := some _ } l hs
  compileField _ _ := .refl orders _
  pushSite _ := .refl orders _
  inferParam _ _ := .refl orders _
  repeatSitesFrom _ := .refl orders _

theorem approximates_clauses (orders : List Json) :
    ClauseSteps orders (Approximates none) (Approximates (some orders)) where
  toSteps := approximates_steps none
  inner := approximates_steps (some orders)
  withOrders h s l _ := h { s with orders := some orders } l rfl
  withoutRefs h s l hs := h { s with validateRefs := false } l hs
  setOutputType _ _ := .refl none _
  window := .refl none _

/-- A window that is cut off at once approximates every other. -/
theorem approximates_zero (orders : Option (List Json)) (n : Nat) :
    Approximates orders Template (windowOf 0) (windowOf n) := by
  intro s l _
  match horders : s.orders with
  | none => exact .inr (by rw [outcome_windowOf_none horders, outcome_windowOf_none horders])
  | some [] => exact .inr (by rw [outcome_windowOf, outcome_windowOf, horders])
  | some (_ :: _) => exact .inl (fails_windowOf_zero horders)

theorem approximates_windowOf (orders : Option (List Json)) {n n' : Nat} (h : n ≤ n') :
    Approximates orders Template (windowOf n) (windowOf n') := by
  induction n generalizing n' with
  | zero => exact approximates_zero orders n'
  | succ n ih =>
    obtain ⟨k, rfl⟩ : ∃ k, n' = k + 1 := ⟨n' - 1, by omega⟩
    exact holds_windowOf_succ (approximates_steps orders) (ih (Nat.le_of_succ_le_succ h))

theorem approximates_piecesWith {policy : Policy} {q : Query} {window window' : Compile Template}
    (hw : (∃ item ∈ q.selection, ItemSums item) →
      Approximates (some q.orders) _ window window') :
    Approximates none _ (piecesWith window policy q) (piecesWith window' policy q) := by
  have hP := approximates_clauses q.orders
  exact hP.bind hP.read fun _ => hP.bind (holds_selectWith hP rfl hw) fun _ => .refl none _

/-! ## 2. Compilations that are not cut off -/

theorem uncut_closed (orders : Option (List Json)) : Compile.Closed (Uncut orders) where
  pure _ _ _ _ := Compile.fails_pure
  fail cause hcause _ _ _ h := hcause (Compile.fails_fail.mp h)
  read s l _ := Compile.fails_pure (s := s) (l := l) (a := s)
  get s l _ := Compile.fails_pure (s := s) (l := l) (a := l)
  bind hm hf s l hs h := by
    rcases Compile.fails_bind.mp h with h | ⟨a, l', -, h⟩
    · exact hm s l hs h
    · exact hf a s l' hs h
  within kind args _ _ hm s l hs h :=
    hm { s with frames := kind :: s.frames } l hs (Compile.fails_within.mp h)

theorem uncut_modify (orders : Option (List Json)) (g : Ledger → Ledger) :
    Holds (Uncut orders) (modify g : Compile Unit) :=
  fun _ _ _ => Compile.not_fails_modify

theorem uncut_inferParam (orders : Option (List Json)) (ref : ParamRef) (type : ValueType) :
    Holds (Uncut orders) (Compile.inferParam ref type) := by
  have hP := uncut_closed orders
  have hsites : Holds (Uncut orders) (modify fun l => { l with
      sites := l.sites.map fun site =>
        if site.id = ref.id ∧ site.type.isNone then { site with type := some type } else site } :
      Compile Unit) := uncut_modify orders _
  unfold Compile.inferParam
  refine hP.bind hP.get fun l => ?_
  split
  · split
    · exact hP.bind (hP.fail _ (by nofun)) fun _ => hsites
    · exact hsites
  · exact hP.bind (uncut_modify orders _) fun _ => hsites

theorem uncut_steps (orders : Option (List Json)) : Steps Part.AnyName (Uncut orders) where
  toClosed := uncut_closed orders
  withField _ h s l hs := h { s with field := some _ } l hs
  compileField name _ :=
    holds_compileField (uncut_closed orders) (fun g _ => uncut_modify orders g) name
  pushSite _ := (uncut_closed orders).bind (uncut_modify orders _) fun _ =>
    (uncut_closed orders).bind (uncut_closed orders).get fun _ => (uncut_closed orders).pure _
  inferParam := uncut_inferParam orders
  repeatSitesFrom _ := uncut_modify orders _

theorem uncut_windowOf_none (n : Nat) : Holds (Uncut none) (windowOf n) := by
  rintro s l hs ⟨e, l', h, -⟩
  rw [outcome_windowOf_none hs] at h
  cases h

theorem uncut_clauses (orders : List Json) :
    ClauseSteps orders (Uncut none) (Uncut (some orders)) where
  toSteps := uncut_steps none
  inner := uncut_steps (some orders)
  withOrders h s l _ := h { s with orders := some orders } l rfl
  withoutRefs h s l hs := h { s with validateRefs := false } l hs
  setOutputType _ _ := uncut_modify none _
  window := uncut_windowOf_none maxNesting

/-- One window does, if no running sum is among the orders. -/
theorem uncut_windowOf_succ {orders : List Json} (h : ¬ OrdersSum orders) (n : Nat) :
    Holds (Uncut (some orders)) (windowOf (n + 1)) := by
  have hrows : Holds (Uncut (some orders)) (rowsWith (windowOf n) orders) :=
    holds_rowsWith (uncut_steps (some orders)) fun hsum => absurd hsum h
  intro s l hs hcut
  exact hrows s l hs (hcut.of_outcome (outcome_windowOf_succ hs n))

theorem uncut_withJoined {j : Join} {part : Compile α} (h : Holds (Uncut none) part) :
    Holds (Uncut none) (withJoined j part) := by
  rintro s l hs ⟨e, l', he, hcause⟩
  obtain ⟨l₁, hpart, -⟩ := error_withJoined.mp he
  exact h (joinedScope s j) _ hs ⟨e, l₁, hpart, hcause⟩

theorem uncut_statements (orders : List Json) :
    StatementSteps orders (Uncut none) (Uncut (some orders)) where
  toClauseSteps := uncut_clauses orders
  withJoined _ h := uncut_withJoined h
  modify := uncut_modify none

theorem uncut_piecesAfter (policy : Policy) (q : Query) (relation : String) (select : Template) :
    Holds (Uncut none) (piecesAfter policy q relation select) :=
  holds_piecesAfter (uncut_statements q.orders) relation select

theorem uncut_piecesWith {policy : Policy} {q : Query} {window : Compile Template}
    (hw : (∃ item ∈ q.selection, ItemSums item) → Holds (Uncut (some q.orders)) window) :
    Holds (Uncut none) (piecesWith window policy q) :=
  holds_piecesWith (uncut_statements q.orders) rfl hw

end Sql

open Sql

/-! ## 3. Statements -/

namespace Query

variable {q : Query} {schema : Schema} {policy : Policy} {window window' : Compile Template}

theorem compileWith_of_unknown (h : (schema.table? (policy.customize q).table).isNone = true)
    (window : Compile Template) : q.compileWith window schema policy =
      .error (.ofCause (.unknownTable (policy.customize q).table)) := by
  unfold compileWith
  dsimp only
  rw [if_pos h]

/-- The statement of pieces, or the failure that took their place. -/
def statementOf (q : Query) (schema : Schema) (policy : Policy) :
    Except CompileError Pieces × Ledger → Except CompileError CompiledQuery
  | (.error e, _) => .error e
  | (.ok pieces, ledger) =>
    .ok { pieces, query := q, schema, label := (rootScope policy schema q).label, ledger }

theorem compileWith_of_known (h : ¬ (schema.table? (policy.customize q).table).isNone = true)
    (window : Compile Template) : q.compileWith window schema policy =
      statementOf (policy.customize q) schema policy
        ((piecesWith window policy (policy.customize q)).outcome
          (rootScope policy schema (policy.customize q)) (.root (policy.customize q).table)) := by
  unfold compileWith
  dsimp only
  rw [if_neg h]
  rfl

/-- A statement is cut off with its pieces. -/
theorem endless_compileWith :
    Endless (q.compileWith window schema policy) ↔
      ¬ (schema.table? (policy.customize q).table).isNone = true ∧
        (piecesWith window policy (policy.customize q)).Fails
          (rootScope policy schema (policy.customize q)) (.root (policy.customize q).table)
          .endlessWindow := by
  by_cases hknown : (schema.table? (policy.customize q).table).isNone = true
  · rw [compileWith_of_unknown hknown]
    refine ⟨?_, fun h => absurd hknown h.1⟩
    rintro ⟨e, he, hcause⟩
    cases he
    cases hcause
  · rw [compileWith_of_known hknown]
    constructor
    · rintro ⟨e, he, hcause⟩
      unfold statementOf at he
      split at he
      · rename_i hpieces
        cases he
        exact ⟨hknown, e, _, hpieces, hcause⟩
      · cases he
    · rintro ⟨-, e, l', hpieces, hcause⟩
      rw [hpieces]
      exact ⟨e, rfl, hcause⟩

/-- A compilation that is not cut off stays the same where windows may be nested deeper. -/
theorem compileWith_of_le {n n' : Nat} (hle : n ≤ n')
    (h : ¬ Endless (q.compileWith (windowOf n) schema policy)) :
    q.compileWith (windowOf n') schema policy = q.compileWith (windowOf n) schema policy := by
  by_cases hknown : (schema.table? (policy.customize q).table).isNone = true
  · rw [compileWith_of_unknown hknown, compileWith_of_unknown hknown]
  · have happrox : Approximates none _ (piecesWith (windowOf n) policy (policy.customize q))
        (piecesWith (windowOf n') policy (policy.customize q)) :=
      approximates_piecesWith fun _ => approximates_windowOf _ hle
    have houtcome := happrox.outcome_eq rfl fun hcut => h (endless_compileWith.mpr ⟨hknown, hcut⟩)
    rw [compileWith_of_known hknown, compileWith_of_known hknown, houtcome]

theorem endsWith_of_not_endless (h : ¬ Endless (q.compile schema policy)) :
    q.EndsWith schema policy (q.compile schema policy) :=
  ⟨h, maxNesting, fun _ hle => compileWith_of_le hle h⟩

/-- The recursion ends if no running sum is in a column, or none among the orders. -/
theorem not_endless_of_not_loops (h : ¬ (policy.customize q).Loops) :
    ¬ Endless (q.compile schema policy) := by
  rw [← compileWith_window, endless_compileWith]
  rintro ⟨-, hcut⟩
  refine uncut_piecesWith (fun hcolumns => ?_) _ _ rfl hcut
  exact uncut_windowOf_succ (fun horders => h ⟨hcolumns, horders⟩) 3

end Query

end QuerySheet
