import Mathlib
import QuerySheet.Proofs.Sheet.Batch

/-!
# What a suspended computation does when it settles

A suspended computation remembers the name of its cell and nothing else of it. Until somebody waits,
the cell may lose its binding, be deleted, made again and written to.

* `settle_cell`: settling writes to the cell of that name, whatever it is bound to by
  then, and leaves all other cells alone that are not computed;
* `value_of_settled`: a cell that is not computed any more keeps its value exactly if the
  computation fails or gives that very value;
* `not_kept_of_rewritten`: a run in which a later write is lost.
-/

namespace QuerySheet.Sheet

variable {s s' t : Sheet} {name a : String} {waiting : Bool}

/-! ## 1. The end of a wait -/

/-- Nothing is left to do if nobody lets the batch wait. -/
theorem Ends.idle (h : Ends t true s') (hsusp : t.suspended = none) :
    s'.running = false ∧ s'.queue = [] ∧ s'.suspended = none := by
  cases h with
  | finished =>
    have hs := (finish_frame t).2
    exact ⟨congrArg Schedule.running hs, congrArg Schedule.queue hs,
      (congrArg Schedule.suspended hs).trans hsusp⟩
  | failed e => exact ⟨rfl, rfl, hsusp⟩

theorem settle_idle {p : Suspended} (hp : s.suspended = some p) :
    s.settle.running = false ∧ s.settle.queue = [] ∧ s.settle.suspended = none := by
  rcases settle_ends hp with ⟨v, t, -, hran, hends⟩ | ⟨e, -, heq⟩
  · exact hends.idle (congrArg Schedule.suspended hran.schedule)
  · rw [heq]
    exact ⟨rfl, rfl, rfl⟩

/-- The outcome goes to the cell of its name; the rest of the queue only changes cells that are
    computed. -/
theorem settle_cell {p : Suspended} (hp : s.suspended = some p) {c : Cell}
    (hc : s.cell? a = some c) (hb : ¬ c.binding.Computes) :
    s.settle.cell? a =
      some { c with value := if a = p.name then p.outcome.toOption.getD c.value else c.value } := by
  rcases settle_ends hp with ⟨v, t, hv, hran, hends⟩ | ⟨e, he, heq⟩
  · have hassigned : ({ s with suspended := none }.assign p.name v).cell? a =
        some { c with value := if a = p.name then v else c.value } := by
      by_cases e : a = p.name
      · rw [assign, e, cell?_update_self]
        exact (congrArg (Option.map _) (e ▸ hc)).trans (by simp)
      · rw [assign, cell?_update_of_ne e]
        exact hc.trans (by simp [e])
    rw [hends.sameCells.cell?, hran.kept a _ hassigned (.inr hb), hv]
    rfl
  · rw [heq, he]
    simp only [Except.toOption, Option.getD_none, ite_self]
    exact hc

theorem sameCells_wait (s : Sheet) : SameCells s.settle s.wait.1 := by
  unfold wait
  dsimp only
  split <;> exact ⟨rfl, rfl⟩

/-! ## 2. Runs -/

/-- While a computation is suspended, any calls but a wait may come. If its cell is there after
    them and not computed, then a wait leaves nothing running, and the cell has the value of the
    computation, or its own if the computation fails. So it keeps its value exactly if the
    computation fails or gives the same one. All other cells that are not computed stay as they
    are. -/
theorem value_of_settled (schema : Schema) (policy : Policy) (executor : Option Executor)
    (before after : List Operation) {p : Suspended}
    (hp : ((new schema policy executor).run before).suspended = some p) (hafter : .wait ∉ after)
    {c : Cell} (hc : ((new schema policy executor).run (before ++ after)).cell? p.name = some c)
    (hb : c.binding = .fixed ∨ c.binding = .unbound) :
    let s := (new schema policy executor).run (before ++ after)
    (s.wait.1.running = false ∧ s.wait.1.queue = [] ∧ s.wait.1.suspended = none) ∧
    s.wait.1.cell? p.name = some { c with value := p.outcome.toOption.getD c.value } ∧
    (s.wait.1.value p.name = s.value p.name ↔ ∀ w, p.outcome = .ok w → w = s.value p.name) ∧
    ∀ a c', a ≠ p.name → s.cell? a = some c' → c'.binding = .fixed ∨ c'.binding = .unbound →
      s.wait.1.cell? a = some c' := by
  intro s
  have hs : s.suspended = some p := by
    have hregular := regular_run (regular_new schema policy executor) before
    have hrun : s = ((new schema policy executor).run before).run after := List.foldl_append
    rw [hrun]
    exact suspended_run hregular hp hafter
  have hfixed {c : Cell} (hb : c.binding = .fixed ∨ c.binding = .unbound) :
      ¬ c.binding.Computes := by
    rcases hb with hb | hb <;> rw [hb] <;> exact id
  have hcell (a : String) (c : Cell) (hc : s.cell? a = some c)
      (hb : c.binding = .fixed ∨ c.binding = .unbound) :=
    ((sameCells_wait s).cell? (a := a)).trans (settle_cell hs hc (hfixed hb))
  have hself := hcell p.name c hc hb
  simp only [↓reduceIte] at hself
  have hvalue : s.value p.name = c.value := by
    rw [value, show s.cell? p.name = some c from hc, Option.elim_some]
  refine ⟨?_, hself, ?_, fun a c' ha hc' hb' => ?_⟩
  · have hsettle := settle_idle hs
    have hwait := schedule_wait (s := s)
    exact ⟨(congrArg Schedule.running hwait).trans hsettle.1,
      (congrArg Schedule.queue hwait).trans hsettle.2.1,
      (congrArg Schedule.suspended hwait).trans hsettle.2.2⟩
  · rw [hvalue, value, hself, Option.elim_some]
    cases p.outcome with
    | ok w => simp [Except.toOption]
    | error e => simp [Except.toOption]
  · have := hcell a c' hc' hb'
    rwa [if_neg ha] at this

/-- A computation that hands on its first argument, later. -/
def handOn : Run := fun _ args => ⟨.ok (args.headD .null), true⟩

/-- `b` waits for the value of `a`. -/
def handingOn : List Operation :=
  [.set "a" (.bool true), .createDynamic "" "b" ⟨["a"], handOn, .null, false⟩]

/-- `b` is deleted, made again and written to. -/
def rewriting : List Operation := [.delete "b", .set "b" (.bool false)]

theorem run_rewriting :
    (((new .empty .none none).run handingOn).suspended,
      ((new .empty .none none).run (handingOn ++ rewriting)).cell? "b",
      ((new .empty .none none).run (handingOn ++ rewriting)).wait.1.value "b") =
    (some ⟨0, "b", .ok (.bool true)⟩, some ⟨.bool false, .fixed, []⟩, .bool true) := by
  simp only [handingOn, rewriting, List.cons_append, List.nil_append, run, List.foldl,
    Operation.apply, createDynamic, List.map, connect, Graph.addEdge, ite_or, ← Bool.cond_eq_ite]
  cbv

/-- The computation of the deleted cell gives its value to the new one. -/
theorem value_of_rewritten :
    ((new .empty .none none).run handingOn).suspended = some ⟨0, "b", .ok (.bool true)⟩ ∧
    .wait ∉ rewriting ∧
    ((new .empty .none none).run (handingOn ++ rewriting)).cell? "b" =
      some ⟨.bool false, .fixed, []⟩ ∧
    ((new .empty .none none).run (handingOn ++ rewriting)).wait.1.cell? "b" =
      some ⟨.bool true, .fixed, []⟩ := by
  obtain ⟨hp, hc, -⟩ := by simpa only [Prod.mk.injEq] using run_rewriting
  have hafter : .wait ∉ rewriting := by simp [rewriting]
  exact ⟨hp, hafter, hc, (value_of_settled _ _ _ _ _ hp hafter hc (.inl rfl)).2.1⟩

/-- The write to `b` is lost when the computation of the deleted cell settles. -/
theorem not_kept_of_rewritten :
    ((new .empty .none none).run handingOn).suspended.map (·.name) = some "b" ∧
    ((new .empty .none none).run (handingOn ++ rewriting)).value "b" = .bool false ∧
    (((new .empty .none none).run (handingOn ++ rewriting)).cell? "b").map (·.binding.kind) =
      some "static" ∧
    ((new .empty .none none).run (handingOn ++ rewriting)).wait.1.value "b" ≠ .bool false := by
  obtain ⟨hp, hc, hvalue⟩ := by simpa only [Prod.mk.injEq] using run_rewriting
  rw [hp, hc, hvalue, value, hc]
  exact ⟨rfl, rfl, rfl, by simp⟩

end QuerySheet.Sheet
