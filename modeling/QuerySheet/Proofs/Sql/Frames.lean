import QuerySheet.Proofs.Sql.Steps

/-!
# Active entry points

Which entry points are active is recorded in errors as they are left, and nothing reads it from the
scope: a compilation has the same outcome whatever entry points are active
(`anyFrames_exprWith`, `anyFrames_windowOf`).
-/

namespace QuerySheet.Sql

open Compile (Composes Holds)

/-- The outcome of the first compilation with other entry points active is that of the second. -/
def AnyFrames (α : Type) (m m' : Compile α) : Prop :=
  ∀ s frames l, m.outcome { s with frames } l = m'.outcome s l

/-! ## 1. Paths -/

section Paths

variable {α β : Type}

theorem anyFrames_composes : Composes AnyFrames where
  pure _ _ _ _ := rfl
  fail _ _ _ _ _ := rfl
  bind hm hf s frames l := by
    rw [Compile.outcome_bind, Compile.outcome_bind, hm s frames l]
    split
    · exact hf _ s frames _
    · rfl

/-- A compilation that reads the scope, but not which entry points are active. -/
theorem anyFrames_read {f : Scope → Compile β}
    (hf : ∀ s frames, AnyFrames β (f { s with frames }) (f s)) :
    Holds AnyFrames (read >>= f) :=
  fun s frames l => hf s frames s frames l

theorem anyFrames_get : Holds AnyFrames (get : Compile Ledger) := fun _ _ _ => rfl

theorem anyFrames_modify (g : Ledger → Ledger) : Holds AnyFrames (modify g : Compile Unit) :=
  fun _ _ _ => rfl

theorem anyFrames_makeJoin (parent : Option String) (field : String) :
    Holds AnyFrames (Path.makeJoin parent field) := by
  have hP := anyFrames_composes
  have halong (s : Scope) (table label : String) :
      Holds AnyFrames (Path.joinAlong s.schema table label field) :=
    hP.bind (hP.require _ _ (by simp)) fun _ => hP.bind (hP.require _ _ (by simp)) fun _ =>
      hP.bind (hP.require _ _ (by simp)) fun _ => hP.bind (fun _ _ _ => rfl) fun _ => hP.pure _
  unfold Path.makeJoin
  refine anyFrames_read fun s frames => ?_
  cases parent with
  | none => exact halong s _ _
  | some key =>
    exact hP.bind anyFrames_get fun _ => hP.bind (hP.require _ _ (by simp)) fun _ => halong s _ _

theorem anyFrames_ensureJoins (parent : Option String) (base : String) (path : List String) :
    Holds AnyFrames (Path.ensureJoins parent base path) := by
  have hP := anyFrames_composes
  have hjoin (parent : Option String) (field key : String) :
      Holds AnyFrames (Path.ensureJoin parent field key) := by
    refine hP.bind anyFrames_get fun l => ?_
    split
    · exact hP.pure _
    · exact hP.bind (anyFrames_makeJoin parent field) fun _ => anyFrames_modify _
  induction path generalizing parent base with
  | nil => exact hP.pure _
  | cons field rest ih => exact hP.bind (hjoin _ _ _) fun _ => ih _ _

theorem anyFrames_resolve (path : String) : Holds AnyFrames (Path.resolve path) := by
  have hP := anyFrames_composes
  have hlanding : Holds AnyFrames (Path.landing path) :=
    anyFrames_read fun s _ => hP.bind (anyFrames_ensureJoins none s.table _) fun _ =>
      hP.bind anyFrames_get fun _ => hP.require _ _ (by simp)
  unfold Path.resolve
  dsimp only
  split
  · exact hP.bind (hP.fail _ (by simp)) fun _ => hlanding
  · exact hlanding

theorem anyFrames_resolveRef (parent : Option String) (field target : String) :
    Holds AnyFrames (Path.resolveRef parent field target) := by
  have hP := anyFrames_composes
  have hrow (label key : String) : Holds AnyFrames (Path.joinRow target field label key) :=
    hP.bind (fun _ _ _ => rfl) fun _ => hP.bind (anyFrames_modify _) fun _ => hP.pure _
  unfold Path.resolveRef
  refine anyFrames_read fun s _ => hP.bind anyFrames_get fun l => ?_
  dsimp only
  split
  · exact hP.pure _
  · cases parent with
    | none => exact hrow s.label _
    | some path => exact hP.bind (anyFrames_resolve path) fun _ => hrow _ _

theorem anyFrames_compileField (reference : String) :
    Holds AnyFrames (Path.compileField reference) := by
  have hP := anyFrames_composes
  have hfield (s : Scope) (parent : Option String) (table label field : String) :
      Holds AnyFrames (Path.readField s parent table label field) := by
    refine hP.bind (hP.require _ _ (by simp)) fun _ =>
      hP.bind (hP.require _ _ (by simp)) fun _ => ?_
    split
    · split
      · exact hP.bind (anyFrames_resolveRef _ _ _) fun _ => hP.pure _
      · exact hP.pure _
    · exact hP.pure _
  have hname : Holds AnyFrames (Path.fieldName reference) := by
    unfold Path.fieldName
    split
    · exact anyFrames_read fun s _ => hP.require _ s.field (by simp)
    · exact hP.pure _
  have hat (name : String) : Holds AnyFrames (Path.readAt name) := by
    refine anyFrames_read fun s _ => ?_
    cases (Path.split name).1 with
    | none => exact hfield s _ _ _ _
    | some path => exact hP.bind (anyFrames_resolve path) fun _ => hfield s _ _ _ _
  rw [Path.compileField_eq]
  refine hP.bind hname fun name => ?_
  split
  · exact hP.fail _ (by simp)
  · exact hat name

end Paths

/-! ## 2. Parts and windows -/

theorem anyFrames_steps : PartSteps Part.AnyName AnyFrames where
  toComposes := anyFrames_composes
  within kind args _ _ hm s frames l := by
    rw [Compile.outcome_within, Compile.outcome_within]
    have h := hm { s with frames := kind :: s.frames } (kind :: frames) l
    rw [show ({ s with frames := kind :: frames } : Scope) = _ from rfl] at h
    exact h ▸ rfl
  mark _ _ _ := rfl
  withField _ hm s frames l := hm { s with field := some _ } frames l
  compileField name _ := anyFrames_compileField name
  pushSite _ _ _ _ := rfl
  inferParam ref type s frames l := by rw [outcome_inferParam, outcome_inferParam]
  repeatSitesFrom _ _ _ _ := rfl

theorem anyFrames_byOrders : ByOrders fun k => AnyFrames k.Carrier := by
  intro k m m' h s frames l
  obtain ⟨n, n', hn, heq⟩ := h s.orders
  rw [(heq { s with frames } l rfl).1, (heq s l rfl).2]
  exact hn s frames l

theorem anyFrames_windowOf (nesting : Nat) : Holds AnyFrames (windowOf nesting) :=
  inStep_windowOf anyFrames_steps.lockstep anyFrames_byOrders (fun _ _ _ => rfl) nesting

theorem anyFrames_exprWith {window : Compile Template} (hw : Holds AnyFrames window) (e : Json) :
    Holds AnyFrames (exprWith window e) :=
  inStep_part anyFrames_steps.lockstep (.expr e) (Part.names_any _) fun _ => hw

end QuerySheet.Sql
