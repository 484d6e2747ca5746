import QuerySheet.Proofs.Sql.Replay

/-!
# Windows without end

A running sum among the orders of a query has a window that compiles the same orders again. Where
this goes on for two windows it goes on for ever: a compilation that is cut off is one whose
recursion has no end, and no other is.

* `spy` is a window that is cut off at once and records the field it was called with. A run under
  another window is that run up to its first window (`Spied`), so that a window nested once more is
  cut off where the next one is (`fails_succ`);
* the way that a run takes does not depend on where it began: two runs under the spy cannot go one
  past a window and one into it, and they stop with one field or each with its own (`SameWay`);
* so the second window is called with the field of the first one, and every later one repeats the
  way of the second with more sites (`Replays.endless`): `endless_windowOf`;
* `Query.ends_iff`: the recursion of a query ends exactly if `Query.compile` is not cut off.
-/

namespace QuerySheet

namespace Sql

open Compile (Composes Holds Moves Follows Trace)

/-! ## 1. A window that reports where it is -/

def fieldFrame (field : Option String) : Frame := ⟨.value, (field.map Json.string).toList⟩

def spy : Compile Template := do
  throw ⟨.endlessWindow, [fieldFrame (← read).field]⟩

/-- The error of a run that was stopped by the spy, in a scope with this field. -/
structure Reports (e : CompileError) (field : Option String) : Prop where
  cause : e.cause = .endlessWindow
  innermost : e.trail.head? = some (fieldFrame field)

theorem Reports.unique {e : CompileError} {field field' : Option String} (h : Reports e field)
    (h' : Reports e field') : field = field' := by
  have hargs := congrArg Frame.args (Option.some.inj (h.innermost.symm.trans h'.innermost))
  cases field <;> cases field' <;> cases hargs <;> rfl

theorem Reports.within {e : CompileError} {field : Option String} (h : Reports e field)
    (f : Frame) : Reports (e.within f) field :=
  ⟨h.cause, by rw [CompileError.within, List.head?_append, h.innermost]; rfl⟩

theorem outcome_spy (s : Scope) (l : Ledger) :
    spy.outcome s l = (.error ⟨.endlessWindow, [fieldFrame s.field]⟩, l) := rfl

/-! ## 2. Up to the first window -/

/-- A run under `window` is the run under the spy, if that is not stopped, and fails as its first
    window does, if it fails. -/
def Spied (window : Compile Template) (α : Type) (m m' : Compile α) : Prop :=
  ∀ s l, (¬ m'.Fails s l .endlessWindow ∧ m.outcome s l = m'.outcome s l) ∨
    ∃ e field l', m'.outcome s l = (.error e, l') ∧ Reports e field ∧
      ∀ cause, window.Fails { s with field } l' cause → m.Fails s l cause

section Spied

variable {window : Compile Template} {α : Type} {m : Compile α}

/-- A step that is never cut off. -/
theorem spied_step (h : ∀ s l, ¬ m.Fails s l .endlessWindow) : Spied window α m m :=
  fun s l => .inl ⟨h s l, rfl⟩

theorem spied_steps (hw : Holds AnyFrames window) : PartSteps Part.AnyName (Spied window) where
  pure _ := spied_step fun _ _ => Compile.fails_pure
  fail _ hcause := spied_step fun _ _ h => hcause (Compile.fails_fail.mp h)
  bind hm hf s l := by
    rw [Compile.fails_bind, Compile.outcome_bind, Compile.outcome_bind]
    rcases hm s l with ⟨huncut, heq⟩ | ⟨e, field, l', hstop, hreports, hfails⟩
    · rw [heq]
      split
      · rename_i a l₁ ha
        rcases hf a s l₁ with ⟨huncut', heq'⟩ | ⟨e, field, l', hstop, hreports, hfails⟩
        · refine .inl ⟨?_, heq'⟩
          rintro (h | ⟨a', l', ha', h⟩)
          · exact huncut h
          · rw [Compile.Yields, ha] at ha'
            cases ha'
            exact huncut' h
        · refine .inr ⟨e, field, l', hstop, hreports, fun cause h => ?_⟩
          exact Compile.fails_bind.mpr (.inr ⟨a, l₁, heq.trans ha, hfails cause h⟩)
      · rename_i e l₁ he
        refine .inl ⟨?_, rfl⟩
        rintro (h | ⟨a', l', ha', -⟩)
        · exact huncut h
        · rw [Compile.Yields, he] at ha'
          cases ha'
    · rw [hstop]
      exact .inr ⟨e, field, l', rfl, hreports, fun cause h =>
        Compile.fails_bind.mpr (.inl (hfails cause h))⟩
  within kind args _ _ hm s l := by
    rw [Compile.fails_within, Compile.outcome_within, Compile.outcome_within]
    rcases hm { s with frames := kind :: s.frames } l with
      ⟨huncut, heq⟩ | ⟨e, field, l', hstop, hreports, hfails⟩
    · rw [heq]
      exact .inl ⟨huncut, rfl⟩
    · rw [hstop]
      refine .inr ⟨_, field, l', rfl, hreports.within _, fun cause h => ?_⟩
      obtain ⟨e', l₁, he, hcause⟩ := h
      have houter := (hw { s with field } (kind :: s.frames) l').trans he
      exact Compile.fails_within.mpr (hfails cause ⟨e', l₁, houter, hcause⟩)
  mark := spied_step fun s l => (uncut_steps s.orders).mark s l rfl
  withField {_ name _ _} _ hm s l := hm { s with field := some name } l
  compileField name _ := spied_step fun s l =>
    (uncut_steps s.orders).compileField name trivial s l rfl
  pushSite name := spied_step fun s l => (uncut_steps s.orders).pushSite name s l rfl
  inferParam ref type := spied_step fun s l => (uncut_steps s.orders).inferParam ref type s l rfl
  repeatSitesFrom _ := spied_step fun _ _ => Compile.not_fails_modify

theorem spied_spy : Spied window Template window spy := fun s l =>
  .inr ⟨_, s.field, l, outcome_spy s l, ⟨rfl, rfl⟩, fun _ h => h⟩

theorem spied_rowsWith (hw : Holds AnyFrames window) (orders : List Json) :
    Spied window Template (rowsWith window orders) (rowsWith spy orders) :=
  inStep_rowsWith (spied_steps hw).lockstep orders fun _ => spied_spy

end Spied

/-! ## 3. Ways of two runs -/

/-- Any results; lists of them have one length. -/
def anything : Likeness := ⟨fun _ _ => True, fun _ _ => True, fun _ _ => True, fun _ _ => True⟩

theorem anything_lawful : anything.Lawful where
  type_refl _ := trivial
  type_of _ := trivial
  sql_of _ := trivial
  fragment _ _ := trivial
  array _ := trivial
  text _ := trivial
  append _ _ := trivial

/-- Two runs, from any scopes and ledgers, do not go one past a window and one into it. If both go
    into one they do so with one field, or each with the field it began with. -/
structure SameWay (k : Kind) (m m' : Compile k.Carrier) : Prop where
  rel : ∀ {s l a l₁ s' l' a' l₁'}, m.Yields s l a l₁ → m'.Yields s' l' a' l₁' →
    anything.rel k a a'
  left : ∀ {s l s' l' a' l₁'}, m.Fails s l .endlessWindow → ¬ m'.Yields s' l' a' l₁'
  right : ∀ {s l a l₁ s' l'}, m.Yields s l a l₁ → ¬ m'.Fails s' l' .endlessWindow
  fields : ∀ {s l e l₁ s' l' e' l₁'}, m.outcome s l = (.error e, l₁) → e.cause = .endlessWindow →
    m'.outcome s' l' = (.error e', l₁') → e'.cause = .endlessWindow →
      ∃ field field', Reports e field ∧ Reports e' field' ∧
        (field = s.field ∧ field' = s'.field ∨ field = field')

namespace SameWay

variable {k : Kind} {m m' : Compile k.Carrier}

/-- Steps that are never cut off. -/
theorem step (hrel : ∀ a a', anything.rel k a a') (h : ∀ s l, ¬ m.Fails s l .endlessWindow)
    (h' : ∀ s l, ¬ m'.Fails s l .endlessWindow) : SameWay k m m' where
  rel _ _ := hrel _ _
  left hcut _ := h _ _ hcut
  right _ hcut := h' _ _ hcut
  fields he hcause _ _ := absurd ⟨_, _, he, hcause⟩ (h _ _)

theorem bind {k' : Kind} {f f' : k.Carrier → Compile k'.Carrier} (hm : SameWay k m m')
    (hf : ∀ a a', anything.rel k a a' → SameWay k' (f a) (f' a')) :
    SameWay k' (m >>= f) (m' >>= f') where
  rel hb hb' := by
    obtain ⟨a, l₁, ha, hb⟩ := Compile.yields_bind.mp hb
    obtain ⟨a', l₁', ha', hb'⟩ := Compile.yields_bind.mp hb'
    exact (hf a a' (hm.rel ha ha')).rel hb hb'
  left hcut hb' := by
    obtain ⟨a', l₁', ha', hb'⟩ := Compile.yields_bind.mp hb'
    rcases Compile.fails_bind.mp hcut with hcut | ⟨a, l₁, ha, hcut⟩
    · exact hm.left hcut ha'
    · exact (hf a a' (hm.rel ha ha')).left hcut hb'
  right hb hcut' := by
    obtain ⟨a, l₁, ha, hb⟩ := Compile.yields_bind.mp hb
    rcases Compile.fails_bind.mp hcut' with hcut' | ⟨a', l₁', ha', hcut'⟩
    · exact hm.right ha hcut'
    · exact (hf a a' (hm.rel ha ha')).right hb hcut'
  fields he hcause he' hcause' := by
    rcases Compile.error_bind.mp he with hstop | ⟨a, l₁, ha, he⟩ <;>
      rcases Compile.error_bind.mp he' with hstop' | ⟨a', l₁', ha', he'⟩
    · exact hm.fields hstop hcause hstop' hcause'
    · exact absurd ha' (hm.left ⟨_, _, hstop, hcause⟩)
    · exact absurd ⟨_, _, hstop', hcause'⟩ (hm.right ha)
    · exact (hf a a' (hm.rel ha ha')).fields he hcause he' hcause'

theorem within (kind : FrameKind) (args : List Json) (hm : SameWay k m m') :
    SameWay k (Compile.within kind args m) (Compile.within kind args m') where
  rel ha ha' := hm.rel (Compile.yields_within.mp ha) (Compile.yields_within.mp ha')
  left hcut ha' := hm.left (Compile.fails_within.mp hcut) (Compile.yields_within.mp ha')
  right ha hcut' := hm.right (Compile.yields_within.mp ha) (Compile.fails_within.mp hcut')
  fields he hcause he' hcause' := by
    obtain ⟨_, hstop, rfl⟩ := Compile.error_within.mp he
    obtain ⟨_, hstop', rfl⟩ := Compile.error_within.mp he'
    obtain ⟨field, field', h, h', hfields⟩ := hm.fields hstop hcause hstop' hcause'
    exact ⟨field, field', h.within _, h'.within _, hfields⟩

/-- Inside of a transformation both runs have its field. -/
theorem withField (name : String) (hm : SameWay k m m') :
    SameWay k (Sql.withField name m) (Sql.withField name m') where
  rel ha ha' := hm.rel (Compile.yields_withReader.mp ha) (Compile.yields_withReader.mp ha')
  left hcut ha' := hm.left (Compile.fails_withReader.mp hcut) (Compile.yields_withReader.mp ha')
  right ha hcut' := hm.right (Compile.yields_withReader.mp ha) (Compile.fails_withReader.mp hcut')
  fields he hcause he' hcause' := by
    obtain ⟨field, field', h, h', hfields⟩ := hm.fields he hcause he' hcause'
    refine ⟨field, field', h, h', .inr ?_⟩
    rcases hfields with ⟨rfl, rfl⟩ | rfl <;> rfl

theorem spy : SameWay .template spy spy where
  rel h _ := by cases h
  left _ h := by cases h
  right h _ := by cases h
  fields he _ he' _ := by
    cases he
    cases he'
    exact ⟨_, _, ⟨rfl, rfl⟩, ⟨rfl, rfl⟩, .inl ⟨rfl, rfl⟩⟩

theorem lockstep : Lockstep anything Part.AnyName SameWay where
  toLawful := anything_lawful
  pure h := {
    rel := fun ha ha' => by
      obtain ⟨rfl, -⟩ := Compile.yields_pure.mp ha
      obtain ⟨rfl, -⟩ := Compile.yields_pure.mp ha'
      exact h
    left := fun hcut _ => Compile.fails_pure hcut
    right := fun _ hcut => Compile.fails_pure hcut
    fields := fun he hcause _ _ => absurd ⟨_, _, he, hcause⟩ Compile.fails_pure }
  fail cause hcause := {
    rel := fun ha _ => absurd ha Compile.yields_fail
    left := fun hcut _ => hcause (Compile.fails_fail.mp hcut)
    right := fun ha _ => Compile.yields_fail ha
    fields := fun he hcause' _ _ =>
      absurd ⟨_, _, he, hcause'⟩ fun h => hcause (Compile.fails_fail.mp h) }
  mistyped _ := {
    rel := fun ha _ => absurd ha Compile.yields_fail
    left := fun _ ha' => Compile.yields_fail ha'
    right := fun ha _ => Compile.yields_fail ha
    fields := fun he hcause _ _ => by
      cases he
      cases hcause }
  bind := bind
  within kind args _ _ hm := within kind args hm
  withField _ hm := withField _ hm
  mark := step (fun _ _ => trivial) (fun s l => (uncut_steps s.orders).mark s l rfl)
    fun s l => (uncut_steps s.orders).mark s l rfl
  compileText _ := step (fun _ _ => trivial)
    (fun s l =>
      holds_compileText (uncut_steps s.orders).toPartSteps (Part.names_any _).here s l rfl)
    fun s l => holds_compileText (uncut_steps s.orders).toPartSteps (Part.names_any _).here s l rfl
  scalar v := step (fun _ _ => trivial)
    (fun s l => holds_ofScalar (uncut_closed s.orders).toComposes v s l rfl)
    fun s l => holds_ofScalar (uncut_closed s.orders).toComposes v s l rfl
  cast _ _ := step (fun _ _ => trivial)
    (fun s l => holds_cast (uncut_steps s.orders).toPartSteps _ _ s l rfl)
    fun s l => holds_cast (uncut_steps s.orders).toPartSteps _ _ s l rfl
  literal := by
    intro o o' _
    have huncut (o : Operand) (s : Scope) (l : Ledger) : ¬ Compile.Fails
        (if o.literal then pure o else Compile.fail .notALiteral) s l .endlessWindow := by
      split
      · exact Compile.fails_pure
      · exact fun h => by cases Compile.fails_fail.mp h
    exact step (fun _ _ => trivial) (huncut o) (huncut o')
  equality _ _ _ := step (fun _ _ => trivial)
    (fun s l => holds_equality (uncut_steps s.orders).toPartSteps _ _ _ s l rfl)
    fun s l => holds_equality (uncut_steps s.orders).toPartSteps _ _ _ s l rfl

theorem rowsWith (orders : List Json) :
    SameWay .template (Sql.rowsWith Sql.spy orders) (Sql.rowsWith Sql.spy orders) :=
  inStep_rowsWith lockstep orders fun _ => SameWay.spy

end SameWay

/-! ## 4. Windows that repeat -/

section Windows

variable {orders : List Json} {s : Scope} {l l' : Ledger} {e : CompileError}
  {field : Option String}

/-- A window yields nowhere if a run under the spy is stopped somewhere. -/
theorem not_yields_windowOf (hne : orders ≠ [])
    (hstop : (rowsWith spy orders).Fails s l .endlessWindow) (n : Nat) {s' : Scope} {l₁ l₂ : Ledger}
    {t : Template} (hs' : s'.orders = some orders) : ¬ (windowOf n).Yields s' l₁ t l₂ := by
  induction n generalizing s' l₁ l₂ t with
  | zero =>
    obtain ⟨o, rest, rfl⟩ := List.exists_cons_of_ne_nil hne
    exact (fails_windowOf_zero hs').not_yields
  | succ n ih =>
    intro h
    rw [Compile.Yields, outcome_windowOf_succ hs'] at h
    rcases spied_rowsWith (anyFrames_windowOf n) orders s' l₁ with
      ⟨-, heq⟩ | ⟨e, field, l', -, -, hfails⟩
    · exact (SameWay.rowsWith orders).left hstop (heq ▸ h)
    · rcases Compile.yields_or_fails (windowOf n) { s' with field } l' with
        ⟨t', l₃, hyields⟩ | ⟨cause, hcause⟩
      · exact ih (show ({ s' with field } : Scope).orders = some orders from hs') hyields
      · exact (hfails cause hcause).not_yields h

/-- A window is cut off if the next one is, where a run under the spy is stopped. -/
theorem fails_succ (hs : s.orders = some orders) (hstop : (rowsWith spy orders).outcome s l =
      (.error e, l')) (he : Reports e field) {n : Nat}
    (h : (windowOf n).Fails { s with field } l' .endlessWindow) :
    (windowOf (n + 1)).Fails s l .endlessWindow := by
  refine Compile.Fails.of_outcome ?_ (outcome_windowOf_succ hs n).symm
  rcases spied_rowsWith (anyFrames_windowOf n) orders s l with
    ⟨huncut, -⟩ | ⟨e', field', l₁, hstop', he', hfails⟩
  · exact absurd ⟨_, _, hstop, he.cause⟩ huncut
  · rw [hstop] at hstop'
    cases hstop'
    cases he.unique he'
    exact hfails _ h

/-- A window that is cut off is stopped, and cut off in the next one. -/
theorem stops_of_fails (hne : orders ≠ []) (hs : s.orders = some orders) {n : Nat}
    (h : (windowOf (n + 1)).Fails s l .endlessWindow) : ∃ e field l',
      (rowsWith spy orders).outcome s l = (.error e, l') ∧ Reports e field ∧
        (windowOf n).Fails { s with field } l' .endlessWindow := by
  have h : (rowsWith (windowOf n) orders).Fails s l .endlessWindow :=
    h.of_outcome (outcome_windowOf_succ hs n)
  rcases spied_rowsWith (anyFrames_windowOf n) orders s l with
    ⟨huncut, heq⟩ | ⟨e, field, l', hstop, he, hfails⟩
  · exact absurd (h.of_outcome heq) huncut
  · refine ⟨e, field, l', hstop, he, ?_⟩
    rcases Compile.yields_or_fails (windowOf n) { s with field } l' with
      ⟨t, l₁, hyields⟩ | ⟨cause, hcause⟩
    · exact absurd hyields (not_yields_windowOf hne ⟨_, _, hstop, he.cause⟩ n hs)
    · obtain rfl := (hfails cause hcause).unique h
      exact hcause

theorem replays_rowsWith {d : Nat} {o o' : Ledger} (ho : o.Sound) (ho' : o'.Sound)
    (hd : o'.siteCount = o.siteCount + d) (orders : List Json) :
    Replays d o o' .template (rowsWith spy orders) (rowsWith spy orders) :=
  inStep_rowsWith (replays_renumbering ho ho' hd).lockstep orders fun _ => replays_cut outcome_spy

/-- What a run that was stopped has left. -/
theorem continues_of_stop (hl : l.Sound)
    (hstop : (rowsWith spy orders).outcome s l = (.error e, l')) : Continues l l l' :=
  ((replays_rowsWith (d := 0) hl hl rfl orders).preserves s l hl (.refl l)).of_error hstop

/-- A run that was stopped is stopped again where it has left off, and so on. -/
theorem endless_of_stop (hne : orders ≠ []) (hs : s.orders = some orders) (hl : l.Sound)
    (hstop : (rowsWith spy orders).outcome s l = (.error e, l')) (he : Reports e s.field) (n : Nat)
    {c : Ledger} (hc : c.Sound) (hcount : l.siteCount ≤ c.siteCount) (hfits : Fits l' c) :
    (windowOf n).Fails s c .endlessWindow := by
  induction n generalizing c with
  | zero =>
    obtain ⟨o, rest, rfl⟩ := List.exists_cons_of_ne_nil hne
    exact fails_windowOf_zero hs
  | succ n ih =>
    obtain ⟨d, hd⟩ := Nat.exists_eq_add_of_le hcount
    obtain ⟨c', hstop', honly⟩ := (replays_rowsWith hl hc hd orders).endless hl (.refl l) hstop
      he.cause ⟨⟨[], by simp⟩, hd⟩ hfits
    have hcontinues := continues_of_stop hc hstop'
    exact fails_succ hs hstop' he (ih hcontinues.sound
      (Nat.le_trans hcount hcontinues.keeps.siteCount) (hfits.of_onlySites honly))

/-- Where the second window is cut off every window is, however deep they may be nested. -/
theorem endless_windowOf (hne : orders ≠ []) (hs : s.orders = some orders) (hl : l.Sound)
    (h : (windowOf 2).Fails s l .endlessWindow) (n : Nat) :
    (windowOf n).Fails s l .endlessWindow := by
  obtain ⟨e₁, field₁, l₁, hstop₁, he₁, h₁⟩ := stops_of_fails hne hs h
  have hs₁ : ({ s with field := field₁ } : Scope).orders = some orders := hs
  obtain ⟨e₂, field₂, l₂, hstop₂, he₂, -⟩ := stops_of_fails hne hs₁ h₁
  -- From the first window on the field stays the same.
  have hfield : field₂ = field₁ := by
    obtain ⟨f₁, f₂, hf₁, hf₂, hsame⟩ :=
      (SameWay.rowsWith orders).fields hstop₁ he₁.cause hstop₂ he₂.cause
    cases hf₁.unique he₁
    cases hf₂.unique he₂
    rcases hsame with ⟨-, hsecond⟩ | hsame
    · exact hsecond
    · exact hsame.symm
  subst hfield
  have hl₁ := continues_of_stop hl hstop₁
  have hl₂ := continues_of_stop hl₁.sound hstop₂
  have hrest (n : Nat) : (windowOf n).Fails { s with field := field₂ } l₂ .endlessWindow :=
    endless_of_stop hne hs₁ hl₁.sound hstop₂ he₂ n hl₂.sound hl₂.keeps.siteCount
      (Ledger.Keeps.refl l₂).fits
  match n with
  | 0 =>
    obtain ⟨o, rest, rfl⟩ := List.exists_cons_of_ne_nil hne
    exact fails_windowOf_zero hs
  | 1 =>
    refine fails_succ hs hstop₁ he₁ ?_
    obtain ⟨o, rest, rfl⟩ := List.exists_cons_of_ne_nil hne
    exact fails_windowOf_zero hs
  | n + 2 => exact fails_succ hs hstop₁ he₁ (fails_succ hs₁ hstop₂ he₂ (hrest n))

end Windows

/-! ## 5. Columns that are cut off -/

def StaysSound (_ : Scope) (l l' : Ledger) : Prop := l.Sound → l'.Sound

theorem trace_staysSound : Trace StaysSound where
  refl _ _ h := h
  trans _ _ _ _ h h' hl := h' (h hl)
  frames _ _ _ _ h := h

theorem steps_staysSound : Steps Part.AnyName (Follows StaysSound) where
  toClosed := trace_staysSound.closed
  withField _ h s l := h { s with field := some _ } l
  compileField name hname s l hl := (steps_lasts.compileField name hname s l hl).1
  pushSite name s l hl := (lasts_pushSite name s l hl).1
  inferParam ref type s l hl := (lasts_inferParam ref type s l hl).1
  repeatSitesFrom mark s l hl := (lasts_repeatSitesFrom mark s l hl).1

theorem staysSound_windowOf (n : Nat) : Moves StaysSound (windowOf n) :=
  holds_windowOf steps_staysSound (.fail trace_staysSound _) n

/-- Where these orders are in scope, two compilations have one outcome or are both cut off. -/
def CutAlike (orders : Option (List Json)) (α : Type) (m m' : Compile α) : Prop :=
  Moves StaysSound m ∧ ∀ s l, s.orders = orders → l.Sound →
    m.outcome s l = m'.outcome s l ∨
      m.Fails s l .endlessWindow ∧ m'.Fails s l .endlessWindow

theorem CutAlike.refl {α : Type} (orders : Option (List Json)) {m : Compile α}
    (h : Moves StaysSound m) : CutAlike orders α m m :=
  ⟨h, fun _ _ _ _ => .inl rfl⟩

theorem cutAlike_closed (orders : Option (List Json)) : Compile.Closed (CutAlike orders) where
  pure a := .refl orders (.pure trace_staysSound a)
  fail cause _ := .refl orders (.fail trace_staysSound cause)
  read := .refl orders (.read trace_staysSound)
  get := .refl orders (.get trace_staysSound)
  bind hm hf := by
    refine ⟨.bind trace_staysSound hm.1 fun a => (hf a).1, fun s l hs hl => ?_⟩
    have hsound := hm.1 s l hl
    rcases hm.2 s l hs hl with heq | ⟨hcut, hcut'⟩
    · rw [Compile.outcome_bind, Compile.outcome_bind, ← heq]
      split
      · rename_i a l₁ ha
        rw [ha] at hsound
        rcases (hf a).2 s l₁ hs hsound with heq' | ⟨hcut, hcut'⟩
        · exact .inl heq'
        · exact .inr ⟨Compile.fails_bind.mpr (.inr ⟨a, l₁, ha, hcut⟩),
            Compile.fails_bind.mpr (.inr ⟨a, l₁, heq.symm.trans ha, hcut'⟩)⟩
      · exact .inl rfl
    · exact .inr ⟨Compile.fails_bind.mpr (.inl hcut), Compile.fails_bind.mpr (.inl hcut')⟩
  within kind args _ _ hm := by
    refine ⟨.within trace_staysSound kind args hm.1, fun s l hs hl => ?_⟩
    rw [Compile.fails_within, Compile.fails_within]
    refine (hm.2 { s with frames := kind :: s.frames } l hs hl).imp_left fun heq => ?_
    rw [Compile.outcome_within, Compile.outcome_within, heq]

theorem cutAlike_steps (orders : Option (List Json)) : Steps Part.AnyName (CutAlike orders) where
  toClosed := cutAlike_closed orders
  withField _ hm := ⟨fun s l => hm.1 { s with field := some _ } l, fun s l hs hl =>
    hm.2 { s with field := some _ } l hs hl⟩
  compileField name hname := .refl orders (steps_staysSound.compileField name hname)
  pushSite name := .refl orders (steps_staysSound.pushSite name)
  inferParam ref type := .refl orders (steps_staysSound.inferParam ref type)
  repeatSitesFrom mark := .refl orders (steps_staysSound.repeatSitesFrom mark)

theorem cutAlike_clauses (orders : List Json) :
    ClauseSteps orders (CutAlike none) (CutAlike (some orders)) where
  toSteps := cutAlike_steps none
  inner := cutAlike_steps (some orders)
  withOrders hm := ⟨fun s l => hm.1 { s with orders := some orders } l, fun s l _ hl =>
    hm.2 { s with orders := some orders } l rfl hl⟩
  withoutRefs hm := ⟨fun s l => hm.1 { s with validateRefs := false } l, fun s l hs hl =>
    hm.2 { s with validateRefs := false } l hs hl⟩
  setOutputType _ _ := .refl none fun _ _ hl => ⟨hl.indexed, hl.numbered⟩
  window := .refl none (staysSound_windowOf maxNesting)

theorem cutAlike_windowOf (orders : List Json) {n : Nat} (hn : maxNesting ≤ n) :
    CutAlike (some orders) Template (windowOf maxNesting) (windowOf n) := by
  refine ⟨staysSound_windowOf maxNesting, fun s l hs hl => ?_⟩
  rcases approximates_windowOf (some orders) hn s l hs with hcut | heq
  · refine .inr ⟨hcut, endless_windowOf ?_ hs hl ?_ n⟩
    · rintro rfl
      have huncut : ¬ (pure "" : Compile Template).Fails s l .endlessWindow := Compile.fails_pure
      refine huncut (hcut.of_outcome ?_)
      rw [outcome_windowOf, hs]
    · have hle : 2 ≤ maxNesting := by decide
      rcases approximates_windowOf (some orders) hle s l hs with hcut' | heq
      · exact hcut'
      · exact hcut.of_outcome heq.symm
  · exact .inl heq

/-- Only the columns may be cut off. -/
theorem fails_piecesWith {policy : Policy} {q : Query} {w : Compile Template} {s : Scope}
    {l : Ledger} (hs : s.orders = none) : (piecesWith w policy q).Fails s l .endlessWindow ↔
      (selectWith w q).Fails s l .endlessWindow := by
  unfold piecesWith
  constructor
  · intro h
    rcases Compile.fails_bind.mp h with hcut | ⟨_, _, hread, hcut⟩
    · exact absurd hcut ((uncut_closed none).read s l hs)
    · obtain ⟨rfl, rfl⟩ := Compile.yields_read.mp hread
      rcases Compile.fails_bind.mp hcut with hcut | ⟨select, l₁, -, hcut⟩
      · exact hcut
      · exact absurd hcut (uncut_piecesAfter policy q _ select _ l₁ hs)
  · intro h
    exact Compile.fails_bind.mpr
      (.inr ⟨s, l, Compile.yields_read.mpr ⟨rfl, rfl⟩, Compile.fails_bind.mpr (.inl h)⟩)

theorem endless_piecesWith {policy : Policy} {q : Query} {s : Scope} {l : Ledger}
    (hs : s.orders = none) (hl : l.Sound)
    (h : (piecesWith window policy q).Fails s l .endlessWindow) {n : Nat} (hn : maxNesting ≤ n) :
    (piecesWith (windowOf n) policy q).Fails s l .endlessWindow := by
  have hselect : CutAlike none _ (selectWith window q) (selectWith (windowOf n) q) :=
    holds_selectWith (cutAlike_clauses q.orders) rfl fun _ => cutAlike_windowOf q.orders hn
  have hcut := (fails_piecesWith hs).mp h
  refine (fails_piecesWith hs).mpr ?_
  rcases hselect.2 s l hs hl with heq | ⟨-, hcut'⟩
  · exact hcut.of_outcome heq
  · exact hcut'

end Sql

open Sql

/-! ## 6. Statements -/

namespace Query

variable {q : Query} {schema : Schema} {policy : Policy}

/-- A compilation that is cut off is cut off wherever it may be. -/
theorem endless_of_endless (h : Endless (q.compile schema policy)) {n : Nat}
    (hn : maxNesting ≤ n) : Endless (q.compileWith (windowOf n) schema policy) := by
  rw [← compileWith_window, endless_compileWith] at h
  exact endless_compileWith.mpr ⟨h.1, endless_piecesWith rfl (Ledger.sound_root _) h.2 hn⟩

/-- The recursion of a compilation ends with a result exactly if it is not cut off. It is not if no
    running sum is in a column, or none among the orders. -/
theorem ends_iff (q : Query) (schema : Schema) (policy : Policy) :
    ((∃ r, q.EndsWith schema policy r) ↔ ¬ Endless (q.compile schema policy)) ∧
      (¬ (policy.customize q).Loops →
        q.EndsWith schema policy (q.compile schema policy)) := by
  refine ⟨⟨fun ⟨r, hr, depth, hends⟩ h => hr ?_, fun h => ⟨_, endsWith_of_not_endless h⟩⟩,
    fun h => endsWith_of_not_endless (not_endless_of_not_loops h)⟩
  rw [← hends (max depth maxNesting) (Nat.le_max_left _ _)]
  exact endless_of_endless h (Nat.le_max_right _ _)

end Query

/-! ## 7. A query without end -/

namespace Sql

/-- The sum of the ones from a row on. -/
def runningCount : Fields := [("$sumOver", .int 1)]

theorem yields_one (w : Compile Template) (s : Scope) (l : Ledger) :
    (argumentsWith w [.castable .float] [.int 1]).Yields s l [.ofNumber (.int 1)] l := by
  have hone : (exprWith w (.int 1)).Yields s l (.ofNumber (.int 1)) l := by
    rw [exprWith.eq_def]
    exact Compile.yields_within.mpr (Compile.yields_pure.mpr ⟨rfl, rfl⟩)
  have hcast : ((Operand.ofNumber (.int 1)).cast .float).Yields s l
      ((Operand.ofNumber (.int 1)).retag .float) l := Compile.yields_pure.mpr ⟨rfl, rfl⟩
  have hnone : (argumentsWith w [] []).Yields s l [] l := by
    rw [argumentsWith.eq_def]
    exact Compile.yields_pure.mpr ⟨rfl, rfl⟩
  rw [argumentsWith.eq_def]
  refine Compile.yields_bind.mpr ⟨_, l, hone, ?_⟩
  refine Compile.yields_bind.mpr ⟨.ofNumber (.int 1), l, ?_, ?_⟩
  · exact Compile.yields_bind.mpr ⟨_, l, hcast, Compile.yields_pure.mpr ⟨rfl, rfl⟩⟩
  · exact Compile.yields_bind.mpr ⟨[], l, hnone, Compile.yields_pure.mpr ⟨rfl, rfl⟩⟩

/-- A running sum is cut off with its window. -/
theorem fails_runningCount {w : Compile Template} {s : Scope}
    (h : ∀ s' l, s'.orders = s.orders → w.Fails s' l .endlessWindow) (l : Ledger) :
    (functionWith w runningCount).Fails s l .endlessWindow := by
  have hdollar : ¬ (!hasDollar "$sumOver") = true := by decide
  rw [runningCount, functionWith.eq_def, Compile.fails_within]
  dsimp only
  rw [callWith.eq_def, if_neg hdollar]
  refine Compile.fails_bind.mpr (.inr ⟨(), l, Compile.yields_pure.mpr ⟨rfl, rfl⟩, ?_⟩)
  refine Compile.fails_bind.mpr (.inr ⟨_, l, yields_one w _ l, ?_⟩)
  exact Compile.fails_bind.mpr (.inl (h _ l rfl))

theorem fails_orderBy_runningCount {w : Compile Template} {s : Scope}
    (h : ∀ s' l, s'.orders = s.orders → w.Fails s' l .endlessWindow) (l : Ledger) :
    (orderByWith w [.object runningCount]).Fails s l .endlessWindow := by
  have horder (s' : Scope) (hs' : s'.orders = s.orders) :
      (orderWith w (.object runningCount)).Fails s' l .endlessWindow := by
    have hfirst : runningCount.find? (·.1 ≠ directionKey) = some ("$sumOver", .int 1) := by decide
    have hfields : runningCount.filter (·.1 ≠ directionKey) = runningCount := by decide
    have hdollar : hasDollar "$sumOver" = true := by decide
    simp only [orderWith, hfirst, hfields, if_pos hdollar]
    refine Compile.fails_bind.mpr (.inl ?_)
    rw [exprWith.eq_def, Compile.fails_within]
    refine fails_runningCount (s := { s' with frames := .expr :: s'.frames })
      (fun s₁ l (hs : s₁.orders = s'.orders) => h s₁ l (hs.trans hs')) l
  unfold orderByWith
  rw [Compile.fails_within, List.mapM_cons, bind_assoc]
  exact Compile.fails_bind.mpr (.inl (horder _ rfl))

/-- Where it is among the orders every window is cut off. -/
theorem fails_windowOf_runningCount {s : Scope} (hs : s.orders = some [.object runningCount])
    (n : Nat) (l : Ledger) : (windowOf n).Fails s l .endlessWindow := by
  induction n generalizing s l with
  | zero => exact fails_windowOf_zero hs
  | succ n ih =>
    refine Compile.Fails.of_outcome ?_ (outcome_windowOf_succ hs n).symm
    exact Compile.fails_bind.mpr
      (.inl (fails_orderBy_runningCount (fun s' l hs' => ih (hs'.trans hs) l) l))

end Sql

namespace Query

/-- A query that selects and orders by a running sum. -/
def counted : Query where
  table := "transactions"
  selection := [.object [("id", .object runningCount)]]
  orders := [.object runningCount]

theorem fails_selectWith_counted (n : Nat) (s : Scope) (l : Ledger) :
    (selectWith (windowOf n) counted).Fails s l .endlessWindow := by
  have hitems : selectItems counted = [.object [("id", .object runningCount)]] := by
    simp [selectItems, counted, selectsId]
  have hdollar : ¬ hasDollar "id" = true := by decide
  unfold selectWith
  rw [Compile.fails_within, hitems, List.mapM_cons, bind_assoc]
  refine Compile.fails_bind.mpr (.inl ?_)
  simp only [selectItemWith, namedColumnWith, List.mapM_cons]
  rw [if_neg hdollar, bind_assoc]
  refine Compile.fails_bind.mpr (.inl ?_)
  rw [Compile.fails_withReader]
  exact fails_runningCount (fun s l hs => fails_windowOf_runningCount hs n l) l

/-- One table, of transactions. -/
def transactionsOnly : Schema :=
  ⟨(∅ : Std.ExtTreeMap String Table).insert "transactions"
    ⟨(∅ : Std.ExtTreeMap String Field).insert "id" ⟨.id, none, false, none⟩⟩⟩

theorem not_ends_of_counted : ¬ ∃ r, counted.EndsWith transactionsOnly .none r := by
  rintro ⟨r, hr, depth, hends⟩
  refine hr ?_
  rw [← hends depth (Nat.le_refl _)]
  refine endless_compileWith.mpr ⟨by decide, (fails_piecesWith rfl).mpr ?_⟩
  exact fails_selectWith_counted depth _ _

end Query

end QuerySheet
