import QuerySheet.Proofs.Sheet.Frame

/-!
# Operations and runs

An `Operation` is one call on a sheet, and `Sheet.run` is what a list of them leaves, each of them
successful or not.

* `Operation.removed`: the names that an operation takes away;
* `SameReads`: two sheets with the same cells, which read the same names, and the same edges. To
  compute, to schedule and to tell the surroundings changes nothing of this
  (`SameReads.runQueue`, `SameReads.invalidate`).
-/

namespace QuerySheet.Sheet

/-! ## 1. Operations -/

/-- A call that may change a sheet. -/
inductive Operation where
  | set (name : String) (v : Json)
  | createStatic (sheet name : String) (v : Json)
  | createDynamic (sheet name : String) (d : Definition)
  | createQuery (sheet name : String) (handle : QueryHandle)
  | addDependencies (sheet name : String) (dependencies : List String)
  | removeDependencies (sheet name : String) (dependencies : List String)
  | unbind (name : String)
  | void (name : String)
  | delete (name : String)
  | clear (sheet : String)
  | prewarm (name : String) (v : Json)
  | load (cells : List (String × Json))
  | subscribe (label : String)
  | unsubscribe (id : Nat)
  | startBarrier
  | endBarrier
  | startTransaction
  | endTransaction
  | tablesChanged (tables : List String)
  | wait

namespace Operation

/-- The sheet that a call leaves, whether it succeeds or fails. -/
def apply (s : Sheet) : Operation → Sheet
  | .set name v => s.set name v
  | .createStatic sheet name v => s.createStatic sheet name v
  | .createDynamic sheet name d => (s.createDynamic sheet name d).1
  | .createQuery sheet name handle => (s.createQuery sheet name handle).1
  | .addDependencies sheet name dependencies => (s.addDependencies sheet name dependencies).1
  | .removeDependencies sheet name dependencies => (s.removeDependencies sheet name dependencies).1
  | .unbind name => s.unbind name
  | .void name => s.void name
  | .delete name => s.delete name
  | .clear sheet => s.clear sheet
  | .prewarm name v => s.prewarm name v
  | .load cells => s.load cells
  | .subscribe label => (s.subscribe label).1
  | .unsubscribe id => s.unsubscribe id
  | .startBarrier => s.startBarrier
  | .endBarrier => s.endBarrier
  | .startTransaction => s.startTransaction
  | .endTransaction => s.endTransaction
  | .tablesChanged tables => s.tablesChanged tables
  | .wait => s.wait.1

/-- The names that a call takes away. -/
def removed (s : Sheet) : Operation → List String
  | .delete name => [name]
  | .clear sheet => s.names sheet
  | _ => []

end Operation

/-- The sheet that calls leave one after the other. -/
def run (s : Sheet) (ops : List Operation) : Sheet := ops.foldl Operation.apply s

variable {s s' : Sheet} {name a : String}

theorem run_concat (ops : List Operation) (op : Operation) :
    s.run (ops ++ [op]) = op.apply (s.run ops) := by
  rw [run, List.foldl_append]
  rfl

/-! ## 2. What reads what -/

/-- Two sheets with the same cells, each of which reads the same, and with the same edges. -/
structure SameReads (s s' : Sheet) : Prop where
  node : ∀ a, s'.graph.hasNode a = true ↔ s.graph.hasNode a = true
  edge : ∀ a b, s'.graph.hasEdge a b = true ↔ s.graph.hasEdge a b = true
  reads : ∀ a, (s'.cell? a).map (·.dependencies) = (s.cell? a).map (·.dependencies)

namespace SameReads

theorem refl (s : Sheet) : SameReads s s := ⟨fun _ => Iff.rfl, fun _ _ => Iff.rfl, fun _ => rfl⟩

theorem trans {s'' : Sheet} (h : SameReads s s') (h' : SameReads s' s'') : SameReads s s'' where
  node a := (h'.node a).trans (h.node a)
  edge a b := (h'.edge a b).trans (h.edge a b)
  reads a := (h'.reads a).trans (h.reads a)

theorem symm (h : SameReads s s') : SameReads s' s where
  node a := (h.node a).symm
  edge a b := (h.edge a b).symm
  reads a := (h.reads a).symm

theorem of_sameCells (h : SameCells s s') : SameReads s s' where
  node a := by rw [h.1]
  edge a b := by rw [h.1]
  reads a := by rw [h.cell?]

/-- It does not matter how a sheet was scheduled before. -/
theorem after {s₁ : Sheet} (h : SameReads s₁ s') (hs : SameCells s s₁) : SameReads s s' :=
  (of_sameCells hs).trans h

/-- A cell may get another value and another binding. -/
theorem update {f : Cell → Cell} (hf : ∀ c, (f c).dependencies = c.dependencies) :
    SameReads s (s.update name f) where
  node _ := Iff.rfl
  edge _ _ := Iff.rfl
  reads a := by
    by_cases e : a = name
    · subst e
      rw [cell?_update_self]
      cases s.cell? a with
      | none => rfl
      | some c => exact congrArg some (hf c)
    · rw [cell?_update_of_ne e]

/-- The cell of a name reads the same on both sheets. -/
theorem dependencies {c' : Cell} (h : SameReads s s') (hc : s'.cell? a = some c') :
    ∃ c, s.cell? a = some c ∧ c'.dependencies = c.dependencies := by
  have hreads := h.reads a
  rw [hc] at hreads
  obtain ⟨c, hc, hdeps⟩ := Option.map_eq_some_iff.mp hreads.symm
  exact ⟨c, hc, hdeps.symm⟩

theorem hasCell (h : SameReads s s') : s'.hasCell a = true ↔ s.hasCell a = true := by
  have hsome : (s'.cell? a).isSome = (s.cell? a).isSome := by
    rw [← Option.isSome_map (f := (·.dependencies)), h.reads, Option.isSome_map]
  rw [hasCell_iff, hasCell_iff, ← Option.isSome_iff_exists, ← Option.isSome_iff_exists, hsome]

/-! ## 3. Computing and scheduling -/

theorem assign (v : Json) : SameReads s (s.assign name v) := update fun _ => rfl

theorem setStatus (status : CacheStatus) : SameReads s (s.setStatus status) :=
  of_sameCells (SameCells.setStatus s status)

theorem compute (s : Sheet) (name : String) : SameReads s (s.compute name).1 := by
  unfold Sheet.compute
  split
  · exact refl s
  · split
    · rename_i run calls _
      have hcount : SameReads s (s.update name (recount run calls)) := update fun _ => rfl
      exact hcount.trans (of_sameCells ⟨rfl, rfl⟩)
    · split
      · exact refl s
      · exact of_sameCells ⟨rfl, rfl⟩
    · exact refl s
    · exact refl s

theorem runQueue (waiting : Bool) (s : Sheet) (index : Nat) (rest : List String) :
    SameReads s (runQueue waiting s index rest) := by
  induction rest generalizing s index with
  | nil => exact of_sameCells (finish_frame s).1
  | cons name rest ih =>
    have hcompute := compute s name
    unfold Sheet.runQueue
    split
    · rename_i s₁ h
      rw [h] at hcompute
      exact hcompute.trans (ih s₁ (index + 1))
    · rename_i s₁ computed h
      rw [h] at hcompute
      refine hcompute.trans ?_
      split
      · exact of_sameCells ⟨rfl, rfl⟩
      · split
        · exact (assign _).trans (ih _ (index + 1))
        · exact of_sameCells ⟨rfl, rfl⟩

theorem enqueue (s : Sheet) (names : List String) : SameReads s (s.enqueue names) := by
  unfold Sheet.enqueue
  split
  · exact refl s
  · refine (setStatus .dirty).trans ?_
    dsimp only
    split
    · exact of_sameCells ⟨rfl, rfl⟩
    · exact (runQueue _ _ _ _).after ⟨rfl, rfl⟩

theorem settle (s : Sheet) : SameReads s s.settle := by
  unfold Sheet.settle
  split
  · exact refl s
  · dsimp only
    split
    · exact ((assign _).trans (runQueue _ (Sheet.assign _ _ _) _ _)).after ⟨rfl, rfl⟩
    · exact of_sameCells ⟨rfl, rfl⟩

theorem wait (s : Sheet) : SameReads s s.wait.1 := by
  unfold Sheet.wait
  dsimp only
  split
  · exact (settle s).trans (of_sameCells ⟨rfl, rfl⟩)
  · exact settle s

theorem endTransaction (s : Sheet) : SameReads s s.endTransaction := by
  unfold Sheet.endTransaction
  dsimp only
  split
  · exact (enqueue _ _).after ⟨rfl, rfl⟩
  · exact of_sameCells ⟨rfl, rfl⟩

theorem foldl_markDirty (s : Sheet) (names : List String) :
    SameReads s (names.foldl markDirty s) := by
  induction names generalizing s with
  | nil => exact refl s
  | cons name names ih => exact (ih (s.markDirty name)).after ⟨rfl, rfl⟩

theorem invalidate (s : Sheet) (names : List String) : SameReads s (s.invalidate names) :=
  ((foldl_markDirty s.startTransaction names).trans (endTransaction _)).after ⟨rfl, rfl⟩

theorem endBarrier (s : Sheet) : SameReads s s.endBarrier := by
  unfold Sheet.endBarrier
  dsimp only
  split
  · exact (of_sameCells (SameCells.markClean _)).after ⟨rfl, rfl⟩
  · exact of_sameCells ⟨rfl, rfl⟩

end SameReads

end QuerySheet.Sheet
