import QuerySheet.Sql.State

/-!
# Outcomes of compilations

A compilation has an outcome for every scope and ledger. Four things are asked of it:

* `Compile.Yields`: with which results and ledgers it succeeds. A compilation that is put together
  from others is taken apart by `yields_bind`, `yields_within` and the like;
* `Compile.After`: what holds afterwards, of the result and the ledger if it succeeds and of the
  ledger alone if it fails;
* `Compile.Moves`: how the ledger that it leaves is related to the one it began with, whether it
  succeeds or fails. A relation that composes (`Compile.Trace`) holds of a compilation that is put
  together if it holds of its parts;
* `Compile.Fails`: with which cause it fails.

A property that holds of a compilation if it holds of its parts is `Compile.Composes`, or
`Compile.Closed`.
-/

namespace QuerySheet.Sql.Compile

variable {α β : Type} {m : Compile α} {f : α → Compile β} {s : Scope} {l l' : Ledger}

/-! ## 1. Outcomes -/

theorem outcome_bind :
    (m >>= f).outcome s l = match m.outcome s l with
      | (.ok a, l') => (f a).outcome s l'
      | (.error e, l') => (.error e, l') := by
  have hbind : (m >>= f).outcome s l = ((m s).bind fun a => f a s) l := rfl
  rw [hbind]
  unfold outcome ExceptT.bind ExceptT.mk ExceptT.run
  simp only [bind, StateT.bind, ExceptT.bindCont]
  cases m s l with
  | mk x l' => cases x <;> rfl

theorem outcome_tryCatch {handle : CompileError → Compile α} :
    (tryCatch m handle).outcome s l = match m.outcome s l with
      | (.ok a, l') => (.ok a, l')
      | (.error e, l') => (handle e).outcome s l' := by
  have htry : (tryCatch m handle).outcome s l = (ExceptT.tryCatch (m s) fun e => handle e s) l :=
    rfl
  rw [htry]
  unfold outcome ExceptT.tryCatch ExceptT.mk ExceptT.run
  simp only [bind, StateT.bind]
  cases m s l with
  | mk x l' => cases x <;> rfl

theorem outcome_within {kind : FrameKind} {args : List Json} :
    (within kind args m).outcome s l =
      match m.outcome { s with frames := kind :: s.frames } l with
      | (.ok a, l') => (.ok a, l')
      | (.error e, l') => (.error (e.within ⟨kind, args⟩), l') := by
  unfold within
  rw [outcome_tryCatch]
  rfl

/-- A choice between two compilations that go on in the same way. -/
theorem ite_bind (p : Prop) [Decidable p] (m m' : Compile α) (f : α → Compile β) :
    (if p then m >>= f else m' >>= f) = (if p then m else m') >>= f :=
  (apply_ite (· >>= f) p m m').symm

/-! ## 2. Successful compilations -/

/-- In scope `s` and with ledger `l` a compilation gives `a` and leaves `l'`. -/
def Yields (m : Compile α) (s : Scope) (l : Ledger) (a : α) (l' : Ledger) : Prop :=
  m.outcome s l = (.ok a, l')

section Yields

variable {a : α} {b : β}

@[simp] theorem yields_pure {a' : α} : (pure a : Compile α).Yields s l a' l' ↔ a' = a ∧ l' = l := by
  constructor
  · intro h
    cases h
    exact ⟨rfl, rfl⟩
  · rintro ⟨rfl, rfl⟩
    rfl

@[simp] theorem yields_fail {cause : CompileError.Cause} :
    ¬ (fail cause : Compile α).Yields s l a l' := by
  intro h
  cases h

@[simp] theorem yields_bind :
    (m >>= f).Yields s l b l' ↔ ∃ a l₁, m.Yields s l a l₁ ∧ (f a).Yields s l₁ b l' := by
  unfold Yields
  rw [outcome_bind]
  constructor
  · intro h
    split at h
    · rename_i a l₁ hm
      exact ⟨a, l₁, hm, h⟩
    · cases h
  · rintro ⟨a, l₁, hm, h⟩
    rw [hm]
    exact h

@[simp] theorem yields_within {kind : FrameKind} {args : List Json} :
    (within kind args m).Yields s l a l' ↔
      m.Yields { s with frames := kind :: s.frames } l a l' := by
  unfold Yields
  rw [outcome_within]
  constructor
  · intro h
    split at h
    · rename_i hm
      rw [hm, ← h]
    · cases h
  · intro h
    rw [h]

@[simp] theorem yields_withReader {g : Scope → Scope} :
    (withReader g m : Compile α).Yields s l a l' ↔ m.Yields (g s) l a l' := Iff.rfl

@[simp] theorem yields_read {s' : Scope} :
    (read : Compile Scope).Yields s l s' l' ↔ s' = s ∧ l' = l := yields_pure (s := s) (a := s)

@[simp] theorem yields_get {l₁ : Ledger} :
    (get : Compile Ledger).Yields s l l₁ l' ↔ l₁ = l ∧ l' = l := yields_pure (s := s) (a := l)

@[simp] theorem yields_modify {g : Ledger → Ledger} {u : Unit} :
    (modify g : Compile Unit).Yields s l u l' ↔ l' = g l := by
  constructor
  · intro h
    cases h
    rfl
  · rintro rfl
    rfl

@[simp] theorem yields_require {cause : CompileError.Cause} {o : Option α} :
    (require cause o).Yields s l a l' ↔ o = some a ∧ l' = l := by
  cases o with
  | none => exact ⟨fun h => absurd h yields_fail, fun h => nomatch h.1⟩
  | some a' =>
    exact yields_pure.trans
      (and_congr_left' ⟨fun e => e ▸ rfl, fun e => (Option.some.inj e).symm⟩)

end Yields

/-! ## 3. After a compilation -/

/-- `Q` holds of the result and the ledger if a compilation succeeds, and `E` of the ledger if it
    fails. -/
def After (m : Compile α) (s : Scope) (l : Ledger) (Q : α → Ledger → Prop) (E : Ledger → Prop) :
    Prop :=
  match m.outcome s l with
  | (.ok a, l') => Q a l'
  | (.error _, l') => E l'

section After

variable {Q Q' : α → Ledger → Prop} {E E' : Ledger → Prop}

@[simp] theorem after_pure {a : α} : (pure a : Compile α).After s l Q E ↔ Q a l := Iff.rfl

@[simp] theorem after_fail {cause : CompileError.Cause} :
    (fail cause : Compile α).After s l Q E ↔ E l := Iff.rfl

@[simp] theorem after_bind {Q : β → Ledger → Prop} :
    (m >>= f).After s l Q E ↔ m.After s l (fun a l' => (f a).After s l' Q E) E := by
  unfold After
  rw [outcome_bind]
  cases m.outcome s l with
  | mk r l' => cases r <;> rfl

@[simp] theorem after_read {Q : Scope → Ledger → Prop} :
    (read : Compile Scope).After s l Q E ↔ Q s l := Iff.rfl

@[simp] theorem after_get {Q : Ledger → Ledger → Prop} :
    (get : Compile Ledger).After s l Q E ↔ Q l l := Iff.rfl

@[simp] theorem after_modify {g : Ledger → Ledger} {Q : Unit → Ledger → Prop} :
    (modify g : Compile Unit).After s l Q E ↔ Q () (g l) := Iff.rfl

@[simp] theorem after_require {cause : CompileError.Cause} {o : Option α} :
    (require cause o).After s l Q E ↔ (∀ a, o = some a → Q a l) ∧ (o = none → E l) := by
  cases o with
  | none => exact ⟨fun h => ⟨fun a e => (by cases e), fun _ => h⟩, fun h => h.2 rfl⟩
  | some a =>
    exact ⟨fun h => ⟨fun b e => Option.some.inj e ▸ h, fun e => (by cases e)⟩,
      fun h => h.1 a rfl⟩

@[simp] theorem after_withReader {g : Scope → Scope} :
    (withReader g m : Compile α).After s l Q E ↔ m.After (g s) l Q E := Iff.rfl

@[simp] theorem after_within {kind : FrameKind} {args : List Json} :
    (within kind args m).After s l Q E ↔ m.After { s with frames := kind :: s.frames } l Q E := by
  unfold After
  rw [outcome_within]
  cases m.outcome { s with frames := kind :: s.frames } l with
  | mk r l' => cases r <;> rfl

theorem After.mono (h : m.After s l Q E) (hQ : ∀ a l', Q a l' → Q' a l')
    (hE : ∀ l', E l' → E' l') : m.After s l Q' E' := by
  unfold After at h ⊢
  split <;> rename_i hm
  · rw [hm] at h
    exact hQ _ _ h
  · rw [hm] at h
    exact hE _ h

theorem After.yields {a : α} (h : m.After s l Q E) (hm : m.Yields s l a l') : Q a l' := by
  unfold After at h
  rw [hm] at h
  exact h

theorem After.of_error {e : CompileError} (h : m.After s l Q E)
    (hm : m.outcome s l = (.error e, l')) : E l' := by
  unfold After at h
  rw [hm] at h
  exact h

/-- What holds of the ledger that is left holds in both cases. -/
theorem After.and_ledger {R : Ledger → Prop} (h : m.After s l Q E) (hR : R (m.outcome s l).2) :
    m.After s l (fun a l' => Q a l' ∧ R l') fun l' => E l' ∧ R l' := by
  unfold After at h ⊢
  split <;> rename_i hm
  · rw [hm] at h hR
    exact ⟨h, hR⟩
  · rw [hm] at h hR
    exact ⟨h, hR⟩

/-- What holds in both cases holds of the ledger that is left. -/
theorem After.ledger (h : m.After s l (fun _ => E) E) : E (m.outcome s l).2 := by
  unfold After at h
  split at h <;> rename_i hm
  · rw [hm]
    exact h
  · rw [hm]
    exact h

end After

/-! ## 4. Ledgers along a compilation -/

/-- Whatever its outcome, a compilation moves the ledger along `R`. -/
def Moves (R : Scope → Ledger → Ledger → Prop) (m : Compile α) : Prop :=
  ∀ s l, R s l (m.outcome s l).2

/-- A relation of ledgers that can be followed through a compilation. It does not depend on the
    entry points that are active. -/
structure Trace (R : Scope → Ledger → Ledger → Prop) : Prop where
  refl : ∀ s l, R s l l
  trans : ∀ s l₁ l₂ l₃, R s l₁ l₂ → R s l₂ l₃ → R s l₁ l₃
  frames : ∀ s frames l l', R { s with frames } l l' → R s l l'

namespace Moves

variable {R : Scope → Ledger → Ledger → Prop}

theorem pure (hR : Trace R) (a : α) : Moves R (Pure.pure a : Compile α) := fun s l => hR.refl s l

theorem fail (hR : Trace R) (cause : CompileError.Cause) :
    Moves R (Compile.fail cause : Compile α) :=
  fun s l => hR.refl s l

theorem read (hR : Trace R) : Moves R (MonadReader.read : Compile Scope) := fun s l => hR.refl s l

theorem get (hR : Trace R) : Moves R (MonadState.get : Compile Ledger) := fun s l => hR.refl s l

theorem bind (hR : Trace R) (hm : Moves R m) (hf : ∀ a, Moves R (f a)) : Moves R (m >>= f) := by
  intro s l
  rw [outcome_bind]
  have h := hm s l
  split <;> rename_i hm'
  · rw [hm'] at h
    exact hR.trans _ _ _ _ h (hf _ _ _)
  · rw [hm'] at h
    exact h

theorem within (hR : Trace R) (kind : FrameKind) (args : List Json) (hm : Moves R m) :
    Moves R (Compile.within kind args m) := by
  intro s l
  rw [outcome_within]
  have h := hR.frames _ _ _ _ (hm { s with frames := kind :: s.frames } l)
  split <;> rename_i hm'
  · rw [hm'] at h
    exact h
  · rw [hm'] at h
    exact h

theorem yields {s : Scope} {l l' : Ledger} {a : α} (hm : Moves R m) (h : m.Yields s l a l') :
    R s l l' := by
  have hmoves := hm s l
  rw [h] at hmoves
  exact hmoves

theorem withReader {g : Scope → Scope} (h : ∀ s l l', R (g s) l l' → R s l l')
    (hm : Moves R m) : Moves R (MonadWithReaderOf.withReader g m) :=
  fun s l => h s l _ (hm (g s) l)

end Moves

/-! ## 5. Failing compilations -/

/-- In scope `s` and with ledger `l` a compilation fails for a cause. -/
def Fails (m : Compile α) (s : Scope) (l : Ledger) (cause : CompileError.Cause) : Prop :=
  ∃ e l', m.outcome s l = (.error e, l') ∧ e.cause = cause

section Fails

variable {cause : CompileError.Cause}

@[simp] theorem fails_pure {a : α} : ¬ (pure a : Compile α).Fails s l cause := by
  rintro ⟨e, l', h, -⟩
  cases h

@[simp] theorem fails_fail {c : CompileError.Cause} :
    (fail c : Compile α).Fails s l cause ↔ c = cause := by
  constructor
  · rintro ⟨e, l', h, rfl⟩
    cases h
    rfl
  · rintro rfl
    exact ⟨_, l, rfl, rfl⟩

/-- What is put together fails with the first part, or with the second. -/
theorem error_bind {e : CompileError} : (m >>= f).outcome s l = (.error e, l') ↔
    m.outcome s l = (.error e, l') ∨
      ∃ a l₁, m.Yields s l a l₁ ∧ (f a).outcome s l₁ = (.error e, l') := by
  rw [outcome_bind]
  constructor
  · intro h
    split at h
    · rename_i a l₁ hm
      exact .inr ⟨a, l₁, hm, h⟩
    · rename_i hm
      cases h
      exact .inl hm
  · rintro (hm | ⟨a, l₁, hm, h⟩)
    · rw [hm]
    · rw [hm]
      exact h

theorem error_within {kind : FrameKind} {args : List Json} {e : CompileError} :
    (within kind args m).outcome s l = (.error e, l') ↔
      ∃ e', m.outcome { s with frames := kind :: s.frames } l = (.error e', l') ∧
        e = e'.within ⟨kind, args⟩ := by
  rw [outcome_within]
  constructor
  · intro h
    split at h
    · cases h
    · rename_i hm
      cases h
      exact ⟨_, hm, rfl⟩
  · rintro ⟨e', hm, rfl⟩
    rw [hm]

theorem fails_bind : (m >>= f).Fails s l cause ↔
    m.Fails s l cause ∨ ∃ a l', m.Yields s l a l' ∧ (f a).Fails s l' cause := by
  constructor
  · rintro ⟨e, l', h, hcause⟩
    rcases error_bind.mp h with hm | ⟨a, l₁, hm, hf⟩
    · exact .inl ⟨e, l', hm, hcause⟩
    · exact .inr ⟨a, l₁, hm, e, l', hf, hcause⟩
  · rintro (⟨e, l', hm, hcause⟩ | ⟨a, l₁, hm, e, l', hf, hcause⟩)
    · exact ⟨e, l', error_bind.mpr (.inl hm), hcause⟩
    · exact ⟨e, l', error_bind.mpr (.inr ⟨a, l₁, hm, hf⟩), hcause⟩

@[simp] theorem fails_within {kind : FrameKind} {args : List Json} :
    (within kind args m).Fails s l cause ↔
      m.Fails { s with frames := kind :: s.frames } l cause := by
  constructor
  · rintro ⟨e, l', h, hcause⟩
    obtain ⟨e', hm, rfl⟩ := error_within.mp h
    exact ⟨e', l', hm, hcause⟩
  · rintro ⟨e, l', hm, hcause⟩
    exact ⟨_, l', error_within.mpr ⟨e, hm, rfl⟩, hcause⟩

@[simp] theorem fails_withReader {g : Scope → Scope} :
    (withReader g m : Compile α).Fails s l cause ↔ m.Fails (g s) l cause := Iff.rfl

theorem fails_read_bind {f : Scope → Compile β} :
    (read >>= f).Fails s l cause ↔ (f s).Fails s l cause := Iff.rfl

theorem fails_get_bind {f : Ledger → Compile β} :
    (get >>= f).Fails s l cause ↔ (f l).Fails s l cause := Iff.rfl

@[simp] theorem not_fails_get : ¬ (get : Compile Ledger).Fails s l cause :=
  fails_pure (s := s) (a := l)

@[simp] theorem fails_require {c : CompileError.Cause} {o : Option α} :
    (require c o).Fails s l cause ↔ o = none ∧ c = cause := by
  cases o with
  | none => exact fails_fail.trans ⟨fun h => ⟨rfl, h⟩, fun h => h.2⟩
  | some a => exact ⟨fun h => absurd h fails_pure, fun h => nomatch h.1⟩

@[simp] theorem not_fails_modify {g : Ledger → Ledger} :
    ¬ (modify g : Compile Unit).Fails s l cause := by
  rintro ⟨e, l', h, -⟩
  cases h

theorem Fails.of_outcome {m' : Compile α} (h : m.Fails s l cause)
    (hm : m.outcome s l = m'.outcome s l) : m'.Fails s l cause := by
  obtain ⟨e, l', he, hcause⟩ := h
  exact ⟨e, l', hm ▸ he, hcause⟩

theorem Fails.not_yields {a : α} (h : m.Fails s l cause) : ¬ m.Yields s l a l' := by
  obtain ⟨e, l₁, he, -⟩ := h
  intro hm
  rw [Yields, he] at hm
  cases hm

theorem Fails.unique {cause' : CompileError.Cause} (h : m.Fails s l cause)
    (h' : m.Fails s l cause') : cause = cause' := by
  obtain ⟨e, l', he, rfl⟩ := h
  obtain ⟨e', l₁, he', rfl⟩ := h'
  rw [he] at he'
  cases he'
  rfl

theorem yields_or_fails (m : Compile α) (s : Scope) (l : Ledger) :
    (∃ a l', m.Yields s l a l') ∨ ∃ cause, m.Fails s l cause := by
  unfold Yields Fails
  cases hm : m.outcome s l with
  | mk r l' =>
    cases r with
    | ok a => exact .inl ⟨a, l', rfl⟩
    | error e => exact .inr ⟨e.cause, e, l', rfl, rfl⟩

end Fails

/-! ## 6. Properties of compilations that are put together -/

/-- A property of two compilations that are put together in the same way holds of them if it holds
    of their parts. A failure for an endless window is no part of one. -/
structure Composes (P : (α : Type) → Compile α → Compile α → Prop) : Prop where
  pure : ∀ {α : Type} (a : α), P α (Pure.pure a) (Pure.pure a)
  fail : ∀ {α : Type} (cause : CompileError.Cause), cause ≠ .endlessWindow →
    P α (Compile.fail cause) (Compile.fail cause)
  bind : ∀ {α β : Type} {m m' : Compile α} {f f' : α → Compile β}, P α m m' →
    (∀ a, P β (f a) (f' a)) → P β (m >>= f) (m' >>= f')

/-- The property holds of reading the scope and the ledger too, and of entry points. -/
structure Closed (P : (α : Type) → Compile α → Compile α → Prop) : Prop extends Composes P where
  read : P Scope MonadReader.read MonadReader.read
  get : P Ledger MonadState.get MonadState.get
  within : ∀ {α : Type} (kind : FrameKind) (args : List Json) {m m' : Compile α}, P α m m' →
    P α (Compile.within kind args m) (Compile.within kind args m')

/-- A property of a single compilation. -/
abbrev Holds (P : (α : Type) → Compile α → Compile α → Prop) {α : Type} (m : Compile α) : Prop :=
  P α m m

variable {P : (α : Type) → Compile α → Compile α → Prop}

theorem Composes.require (hP : Composes P) (cause : CompileError.Cause) (o : Option α)
    (hcause : cause ≠ .endlessWindow) : Holds P (Compile.require cause o) := by
  cases o with
  | none => exact hP.fail cause hcause
  | some a => exact hP.pure a

namespace Closed

theorem mark (hP : Closed P) : Holds P Compile.mark := hP.bind hP.get fun _ => hP.pure _

theorem mapM (hP : Closed P) {f f' : α → Compile β} (xs : List α)
    (hf : ∀ x ∈ xs, P β (f x) (f' x)) : P (List β) (xs.mapM f) (xs.mapM f') := by
  induction xs with
  | nil => exact hP.pure _
  | cons x xs ih =>
    rw [List.mapM_cons, List.mapM_cons]
    refine hP.bind (hf x List.mem_cons_self) fun y => hP.bind ?_ fun ys => hP.pure _
    exact ih fun x hx => hf x (List.mem_cons_of_mem _ hx)

theorem forM (hP : Closed P) {f : α → Compile PUnit} (xs : List α) (hf : ∀ x, Holds P (f x)) :
    Holds P (xs.forM f) := by
  induction xs with
  | nil => exact hP.pure _
  | cons x xs ih => exact hP.bind (hf x) fun _ => ih

end Closed

/-- The property to move the ledger along a relation. -/
abbrev Follows (R : Scope → Ledger → Ledger → Prop) :
    (α : Type) → Compile α → Compile α → Prop :=
  fun _ m _ => Moves R m

theorem Trace.closed {R : Scope → Ledger → Ledger → Prop} (hR : Trace R) : Closed (Follows R) where
  pure := .pure hR
  fail cause _ := .fail hR cause
  read := .read hR
  get := .get hR
  bind := .bind hR
  within kind args _ _ := .within hR kind args

end QuerySheet.Sql.Compile
