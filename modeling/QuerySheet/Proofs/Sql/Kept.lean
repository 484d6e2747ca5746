import QuerySheet.Proofs.Sql.Recall
import QuerySheet.Proofs.Sql.Renumber

/-!
# What a compilation keeps

An entry point of the compiler adds to the ledger, and it changes nothing that was there when it
was called.

* `Ledger.Keeps`: joins, parameter types and counters only grow, tables and columns stay. Every
  step of a compilation moves along it (`steps_lasts`), as long as the ledger is `Ledger.Sound`;
* bind sites need more: their types are filled in later. A parameter that was numbered after a
  call began is no site from before, and no other reaches the call (`preserves_renumbering`);
* `Call`: the entry points. `kept_after_call` puts both together for every `Ledger.Reachable`
  ledger.
-/

namespace QuerySheet.Sql

open Compile (Moves Follows Trace)

/-! ## 1. Growing ledgers -/

namespace Ledger

/-- Keys of joins lead to joins, and no site has a number that was not given out. -/
structure Sound (l : Ledger) : Prop where
  indexed : l.joins.Indexed
  numbered : ∀ site ∈ l.sites, site.id ≤ l.siteCount

/-- What a later ledger has of an earlier one, apart from its bind sites. -/
structure Keeps (l l' : Ledger) : Prop where
  dependencies : l'.dependencies = l.dependencies
  outputTypes : l'.outputTypes = l.outputTypes
  joins : l.joins.Grows l'.joins
  paramTypes : ∀ (name : String) (type : ValueType), l.paramTypes[name]? = some type →
    l'.paramTypes[name]? = some type
  aliasCount : l.aliasCount ≤ l'.aliasCount
  siteCount : l.siteCount ≤ l'.siteCount

namespace Keeps

variable {l l₁ l' : Ledger}

theorem refl (l : Ledger) : l.Keeps l :=
  ⟨rfl, rfl, .refl _, fun _ _ h => h, Nat.le_refl _, Nat.le_refl _⟩

theorem trans (h : l.Keeps l₁) (h' : l₁.Keeps l') : l.Keeps l' where
  dependencies := h'.dependencies.trans h.dependencies
  outputTypes := h'.outputTypes.trans h.outputTypes
  joins := h.joins.trans h'.joins
  paramTypes name type ht := h'.paramTypes name type (h.paramTypes name type ht)
  aliasCount := Nat.le_trans h.aliasCount h'.aliasCount
  siteCount := Nat.le_trans h.siteCount h'.siteCount

end Keeps

theorem sound_root (table : String) : (root table).Sound :=
  ⟨Joins.indexed_empty, fun _ h => (nomatch h)⟩

end Ledger

variable {s : Scope} {l l' l₁ : Ledger}

/-- A sound ledger stays sound, and what it has is kept. -/
def Lasts (_ : Scope) (l l' : Ledger) : Prop := l.Sound → l'.Sound ∧ l.Keeps l'

theorem trace_lasts : Trace Lasts where
  refl _ l hl := ⟨hl, .refl l⟩
  trans _ _ _ _ h h' hl := by
    obtain ⟨hl₁, hkeeps⟩ := h hl
    obtain ⟨hl₂, hkeeps'⟩ := h' hl₁
    exact ⟨hl₂, hkeeps.trans hkeeps'⟩
  frames _ _ _ _ h := h

/-! ## 2. Steps -/

theorem Ledger.AddsJoins.lasts (h : l.AddsJoins l') (hl : l.Sound) : l'.Sound ∧ l.Keeps l' := by
  have hsites : l'.sites = l.sites := by rw [h.rest]
  have hcount : l'.siteCount = l.siteCount := by rw [h.rest]
  have htypes : l'.paramTypes = l.paramTypes := by rw [h.rest]
  refine ⟨⟨h.indexed, ?_⟩, ?_, ?_, h.joins, ?_, h.aliasCount, Nat.le_of_eq hcount.symm⟩
  · rw [hsites, hcount]
    exact hl.numbered
  · rw [h.rest]
  · rw [h.rest]
  · rw [htypes]
    exact fun _ _ ht => ht

theorem numbered_noted {sites : List Site} {count : Nat} (h : ∀ site ∈ sites, site.id ≤ count)
    (ref : ParamRef) (type : ValueType) : ∀ site ∈ noted ref type sites, site.id ≤ count := by
  intro site hsite
  obtain ⟨before, hbefore, rfl⟩ := List.mem_map.mp hsite
  split <;> exact h before hbefore

/-- An occurrence that was numbered later than all sites is none of them. -/
theorem noted_of_lt {sites : List Site} {count : Nat} (h : ∀ site ∈ sites, site.id ≤ count)
    {ref : ParamRef} (hlt : count < ref.id) (type : ValueType) : noted ref type sites = sites := by
  refine (List.map_congr_left fun site hsite => ?_).trans (List.map_id _)
  have hne : site.id ≠ ref.id := Nat.ne_of_lt (Nat.lt_of_le_of_lt (h site hsite) hlt)
  rw [if_neg fun hsame => hne hsame.1, id_eq]

theorem lasts_inferParam (ref : ParamRef) (type : ValueType) :
    Moves Lasts (Compile.inferParam ref type) := by
  intro s l hl
  rw [outcome_inferParam]
  split
  · split
    · exact ⟨⟨hl.indexed, numbered_noted hl.numbered ref type⟩,
        rfl, rfl, .refl _, fun _ _ h => h, Nat.le_refl _, Nat.le_refl _⟩
    · exact ⟨hl, .refl l⟩
  · rename_i hnone
    refine ⟨⟨hl.indexed, numbered_noted hl.numbered ref type⟩,
      rfl, rfl, .refl _, fun name known h => ?_, Nat.le_refl _, Nat.le_refl _⟩
    have hne : ref.name ≠ name := by
      rintro rfl
      rw [hnone] at h
      cases h
    rw [Std.ExtTreeMap.getElem?_insert, if_neg (by simpa using hne), h]

theorem lasts_pushSite (name : String) : Moves Lasts (Compile.pushSite name) := by
  intro s l hl
  refine ⟨⟨hl.indexed, fun site hsite => ?_⟩,
    rfl, rfl, .refl _, fun _ _ h => h, Nat.le_refl _, Nat.le_succ _⟩
  rcases List.mem_append.mp hsite with hsite | hsite
  · exact Nat.le_succ_of_le (hl.numbered site hsite)
  · rw [List.mem_singleton.mp hsite]
    exact Nat.le_refl _

theorem Site.mem_of_mem_repeatFrom {sites : List Site} {mark : Nat} {site : Site}
    (h : site ∈ Site.repeatFrom sites mark) : site ∈ sites := by
  rcases List.mem_append.mp h with h | h
  · exact h
  · exact List.mem_of_mem_drop h

theorem lasts_repeatSitesFrom (mark : Nat) : Moves Lasts (Compile.repeatSitesFrom mark) := by
  intro s l hl
  refine ⟨⟨hl.indexed, fun site hsite => ?_⟩,
    rfl, rfl, .refl _, fun _ _ h => h, Nat.le_refl _, Nat.le_refl _⟩
  exact hl.numbered site (Site.mem_of_mem_repeatFrom hsite)

theorem lasts_of_remembers {α : Type} {m : Compile α} (h : Compile.Holds Remembers m) :
    Moves Lasts m := by
  intro s l hl
  have hlasts : m.After s l (fun _ l' => l'.Sound ∧ l.Keeps l') fun l' => l'.Sound ∧ l.Keeps l' :=
    (h s l hl.indexed).mono (fun _ _ hadds => hadds.1.lasts hl) fun _ hadds => hadds.lasts hl
  exact hlasts.ledger

theorem steps_lasts : Steps Part.AnyName (Follows Lasts) where
  toClosed := trace_lasts.closed
  withField _ h s l := h { s with field := some _ } l
  compileField name _ := lasts_of_remembers (remembers_compileField name)
  pushSite := lasts_pushSite
  inferParam := lasts_inferParam
  repeatSitesFrom := lasts_repeatSitesFrom

/-! ## 3. Bind sites -/

/-- A ledger that was reached from `o`: the sites of `o` come first, as they were. -/
structure Since (o l : Ledger) : Prop where
  sites : o.sites <+: l.sites
  siteCount : o.siteCount ≤ l.siteCount

theorem Since.refl (o : Ledger) : Since o o := ⟨List.prefix_refl _, Nat.le_refl _⟩

theorem trace_since {o : Ledger} : Trace fun _ l l' => Since o l → Since o l' where
  refl _ _ h := h
  trans _ _ _ _ h h' hs := h' (h hs)
  frames _ _ _ _ h := h

theorem since_joins {o : Ledger} (g : Ledger → Ledger) (hg : ChangesJoins g) :
    Moves (fun _ l l' => Since o l → Since o l') (modify g : Compile Unit) :=
  moves_joins (fun _ _ _ _ hs => ⟨hs.sites, hs.siteCount⟩) g hg

/-- The run that began with `o` goes on from `l` to `l'`. -/
structure Continues (o l l' : Ledger) : Prop where
  sound : l'.Sound
  keeps : l.Keeps l'
  since : Since o l'

theorem Continues.refl {o : Ledger} (hl : l.Sound) (ho : Since o l) : Continues o l l :=
  ⟨hl, .refl l, ho⟩

theorem Continues.trans {o : Ledger} (h : Continues o l l₁) (h' : Continues o l₁ l') :
    Continues o l l' :=
  ⟨h'.sound, h.keeps.trans h'.keeps, h'.since⟩

/-- A run that began with `o` goes on, and has a result with occurrences that are numbered later. -/
def Preserves (d : Nat) (o o' : Ledger) (k : Kind) (m _ : Compile k.Carrier) : Prop :=
  ∀ s l, l.Sound → Since o l → m.After s l
    (fun a l' => Continues o l l' ∧ ∃ a', (renumbered d o o').rel k a a') (Continues o l)

section Preserves

variable {d : Nat} {o o' : Ledger} {k : Kind} {m m' : Compile k.Carrier}

/-- A step of which it is clear how it moves the ledger, but for the sites of `o`. -/
theorem preserves_of_moves (hlasts : Moves Lasts m)
    (hsince : Moves (fun _ l l' => Since o l → Since o l') m)
    (hrel : ∀ s l a l', Since o l → m.Yields s l a l' → ∃ a', (renumbered d o o').rel k a a') :
    Preserves d o o' k m m' := by
  intro s l hl ho
  obtain ⟨hsound, hkeeps⟩ := hlasts s l hl
  have hsince := hsince s l ho
  unfold Compile.After
  split <;> rename_i h
  · rw [h] at hsound hkeeps hsince
    exact ⟨⟨hsound, hkeeps, hsince⟩, hrel s l _ _ ho h⟩
  · rw [h] at hsound hkeeps hsince
    exact ⟨hsound, hkeeps, hsince⟩

theorem preserves_renumbering (ho : o.Sound) (d : Nat) (o' : Ledger) :
    Renumbering d o o' (Preserves d o o') where
  pure h _ _ hl ho := Compile.after_pure.mpr ⟨.refl hl ho, _, h⟩
  fail _ _ _ _ hl ho := Compile.after_fail.mpr (.refl hl ho)
  bind hm hf s l hl ho := by
    refine Compile.after_bind.mpr ((hm s l hl ho).mono (fun a l₁ ⟨h, a', ha⟩ => ?_) fun _ h => h)
    exact (hf a a' ha s l₁ h.sound h.since).mono (fun b l₂ ⟨h', hb⟩ => ⟨h.trans h', hb⟩)
      fun _ h' => h.trans h'
  within kind args _ _ hm s l hl ho :=
    Compile.after_within.mpr (hm { s with frames := kind :: s.frames } l hl ho)
  withField field _ _ hm s l hl ho :=
    Compile.after_withReader.mpr (hm { s with field := some field } l hl ho)
  mark s l hl ho := by
    obtain ⟨added, hadded⟩ := ho.sites
    refine ⟨.refl hl ho, o'.sites.length + added.length, added.length, ?_, rfl⟩
    show l.sites.length = _
    rw [← hadded, List.length_append]
  compileField name := by
    refine preserves_of_moves (lasts_of_remembers (remembers_compileField name))
      (fun s l hs => ?_) fun s l x l' _ h => ?_
    · have hsites : Moves (fun _ l l' => Since o l → Since o l') (Path.compileField name) :=
        holds_compileField
          (Trace.closed ⟨fun _ _ h => h, fun _ _ _ _ h h' hs => h' (h hs), fun _ _ _ _ h => h⟩)
          (moves_joins fun _ _ _ _ hs => ⟨hs.sites, hs.siteCount⟩) name
      exact hsites s l hs
    · obtain ⟨-, sql, type, rfl, -⟩ := (compileField_reads name s l).yields h
      exact ⟨_, renumbered_of_not_param rfl rfl⟩
  pushSite name := by
    refine preserves_of_moves ?_ (fun s l hs => ?_) fun s l x l' hs h => ?_
    · exact .bind trace_lasts (lasts_pushSite name) fun _ => .pure trace_lasts _
    · exact ⟨hs.sites.trans (List.prefix_append _ _), Nat.le_succ_of_le hs.siteCount⟩
    · cases h
      refine ⟨_, fun ref href => ?_, rfl⟩
      cases href
      exact Nat.lt_succ_of_le hs.siteCount
  inferParam ref type hfresh := by
    refine preserves_of_moves (lasts_inferParam ref type) (fun s l hs => ?_)
      fun _ _ _ _ _ _ => ⟨(), trivial⟩
    have hnoted : o.sites <+: noted ref type l.sites := by
      obtain ⟨added, hadded⟩ := hs.sites
      rw [← hadded, noted, List.map_append, ← noted, noted_of_lt ho.numbered hfresh]
      exact List.prefix_append _ _
    rw [outcome_inferParam]
    split
    · split
      · exact ⟨hnoted, hs.siteCount⟩
      · exact hs
    · exact ⟨hnoted, hs.siteCount⟩
  repeatSitesFrom _ :=
    preserves_of_moves (lasts_repeatSitesFrom _)
      (fun _ _ hs => ⟨hs.sites.trans (List.prefix_append _ _), hs.siteCount⟩)
      fun _ _ _ _ _ _ => ⟨(), trivial⟩

theorem preserves_byOrders (d : Nat) (o o' : Ledger) : ByOrders (Preserves d o o') := by
  intro k m m' h s l hl ho
  obtain ⟨n, n', hn, heq⟩ := h s.orders
  have := hn s l hl ho
  unfold Compile.After at this ⊢
  rw [(heq s l rfl).1]
  exact this

theorem preserves_windowOf (ho : o.Sound) (nesting : Nat) :
    Preserves d o o' .template (windowOf nesting) (windowOf nesting) :=
  inStep_windowOf (preserves_renumbering ho d o').lockstep (preserves_byOrders d o o')
    (fun _ _ hl hs => Compile.after_fail.mpr (.refl hl hs)) nesting

end Preserves

/-! ## 4. Entry points -/

/-- A call of an entry point of the compiler. -/
inductive Call where
  | expr (e : Json)
  | function (fields : Fields)
  | op (field : String) (test : Json)
  | conditions (conds : Json)
  | and (conds : Json)
  | or (conds : Json)
  | orderBy (orders : List Json)
  | path (name : String)
  | refPath (parent : Option String) (field target : String)

namespace Call

def run : Call → Compile Unit
  | .expr e => do let _ ← compileExpr e
  | .function fields => do let _ ← compileFunction fields
  | .op field test => do let _ ← compileOp field test
  | .conditions conds => do let _ ← compileConditions conds
  | .and conds => do let _ ← compileAnd conds
  | .or conds => do let _ ← compileOr conds
  | .orderBy orders => do let _ ← compileOrderBy orders
  | .path name => do let _ ← Path.resolve name
  | .refPath parent field target => do let _ ← Path.resolveRef parent field target

/-- The ledger that a call leaves, whether it succeeds or fails. -/
def ledger (c : Call) (s : Scope) (l : Ledger) : Ledger := (c.run.outcome s l).2

/-- The scope that is in force when a call has returned, with a result or an error. -/
def scopeAfter (c : Call) : Compile Scope := do
  tryCatch c.run fun _ => pure ()
  read

theorem yields_scopeAfter (c : Call) (s : Scope) (l : Ledger) :
    c.scopeAfter.Yields s l s (c.ledger s l) := by
  refine Compile.yields_bind.mpr ⟨(), c.ledger s l, ?_, Compile.yields_read.mpr ⟨rfl, rfl⟩⟩
  unfold Compile.Yields ledger
  rw [Compile.outcome_tryCatch]
  cases c.run.outcome s l with
  | mk r l' => cases r <;> rfl

theorem preserves_run {d : Nat} {o o' : Ledger} (ho : o.Sound) (c : Call) :
    Preserves d o o' .unit c.run c.run := by
  have hP := preserves_renumbering ho d o'
  have hwindow : Preserves d o o' .template window window := preserves_windowOf ho maxNesting
  have hpart (p : Part) : p.InStep (renumbered d o o') (Preserves d o o') window window :=
    inStep_part hP.lockstep p (Part.names_any p) fun _ => hwindow
  have hpath {α : Type} {m : Compile α} (hm : Compile.Holds Remembers m)
      (hsince : Moves (fun _ l l' => Since o l → Since o l') m) :
      Preserves d o o' .unit (m >>= fun _ => pure ()) (m >>= fun _ => pure ()) :=
    preserves_of_moves (.bind trace_lasts (lasts_of_remembers hm) fun _ => .pure trace_lasts ())
      (Moves.bind trace_since hsince fun _ => .pure trace_since ()) fun _ _ _ _ _ _ => ⟨(), trivial⟩
  cases c with
  | expr e => exact hP.bind (k := .operand) (hpart (.expr e)) fun _ _ _ => hP.pure trivial
  | function fields =>
    exact hP.bind (k := .operand) (hpart (.function fields)) fun _ _ _ => hP.pure trivial
  | op field test =>
    exact hP.bind (k := .template) (hpart (.op field test)) fun _ _ _ => hP.pure trivial
  | conditions conds =>
    exact hP.bind (k := .templates) (hpart (.conditions conds)) fun _ _ _ => hP.pure trivial
  | and conds =>
    have hand : Preserves d o o' .template (compileAnd conds) (compileAnd conds) := by
      unfold compileAnd
      split
      · exact hP.pure (hP.lockstep.text "1")
      · exact hP.bind (k := .templates) (hpart (.conditions conds)) fun _ _ h =>
          hP.pure (hP.lockstep.all h)
    exact hP.bind (k := .template) hand fun _ _ _ => hP.pure trivial
  | or conds =>
    have hor : Preserves d o o' .template (compileOr conds) (compileOr conds) := by
      unfold compileOr
      split
      · exact hP.pure (hP.lockstep.text "0")
      · exact hP.bind (k := .templates) (hpart (.conditions conds)) fun _ _ h =>
          hP.pure (hP.lockstep.any h)
    exact hP.bind (k := .template) hor fun _ _ _ => hP.pure trivial
  | orderBy orders =>
    exact hP.bind (k := .template) (inStep_orderByWith hP.lockstep orders fun _ => hwindow)
      fun _ _ _ => hP.pure trivial
  | path name =>
    exact hpath (remembers_resolve name)
      (holds_resolve (pathSteps_of_joins trace_since.closed since_joins) name)
  | refPath parent field target =>
    exact hpath (remembers_resolveRef parent field target)
      (holds_resolveRef trace_since.closed since_joins parent field target)

theorem continues (hl : l.Sound) (c : Call) (s : Scope) : Continues l l (c.ledger s l) := by
  have hrun : Preserves 0 l l .unit c.run c.run := preserves_run hl c
  have h : c.run.After s l (fun _ => Continues l l) (Continues l l) :=
    (hrun s l hl (.refl l)).mono (fun _ _ h => h.1) fun _ h => h
  exact h.ledger

end Call

/-! ## 5. Reachable ledgers -/

theorem Site.mem_of_mem_move {sites : List Site} {source target : Nat} {site : Site}
    (h : site ∈ Site.move sites source target) : site ∈ sites := by
  rcases List.mem_append.mp h with h | h
  · rcases List.mem_append.mp h with h | h
    · exact List.mem_of_mem_take h
    · exact List.mem_of_mem_drop h
  · exact List.mem_of_mem_take (List.mem_of_mem_drop h)

/-- What else changes a ledger while a query is compiled. -/
inductive Step where
  | pushSite (name : String)
  | inferParam (ref : ParamRef) (type : ValueType)
  | repeatSites (mark : Nat)
  | moveSites (source target : Nat)
  | outputType (name : String) (type : ValueType)
  | dependency (table : String)

def Step.run : Step → Compile Unit
  | .pushSite name => do let _ ← Compile.pushSite name
  | .inferParam ref type => Compile.inferParam ref type
  | .repeatSites mark => Compile.repeatSitesFrom mark
  | .moveSites source target => Compile.moveSites source target
  | .outputType name type => setOutputType name type
  | .dependency table => modify fun l => { l with dependencies := l.dependencies ++ [table] }

namespace Ledger

/-- The ledgers that calls and other steps lead to, in any scopes. The joins of a statement are put
    aside for those of another one, and taken up again. -/
inductive Reachable : Ledger → Prop
  | root (table : String) : Reachable (.root table)
  | call {l : Ledger} (h : Reachable l) (c : Call) (s : Scope) : Reachable (c.ledger s l)
  | step {l : Ledger} (h : Reachable l) (t : Step) (s : Scope) :
      Reachable (t.run.outcome s l).2
  | joins {l l' : Ledger} (h : Reachable l) (h' : Reachable l') :
      Reachable { l with joins := l'.joins }

theorem Sound.step {l : Ledger} (h : l.Sound) (t : Step) (s : Scope) :
    (t.run.outcome s l).2.Sound := by
  cases t with
  | pushSite name => exact (lasts_pushSite name s l h).1
  | inferParam ref type => exact (lasts_inferParam ref type s l h).1
  | repeatSites mark => exact (lasts_repeatSitesFrom mark s l h).1
  | moveSites source target =>
    exact ⟨h.indexed, fun site hsite => h.numbered site (Site.mem_of_mem_move hsite)⟩
  | outputType name type => exact ⟨h.indexed, h.numbered⟩
  | dependency table => exact ⟨h.indexed, h.numbered⟩

theorem Reachable.sound {l : Ledger} (h : l.Reachable) : l.Sound := by
  induction h with
  | root table => exact sound_root table
  | call _ c s ih => exact (c.continues ih s).sound
  | step _ t s ih => exact ih.step t s
  | joins _ _ ih ih' => exact ⟨ih'.indexed, ih.numbered⟩

end Ledger

/-- A call of an entry point leaves the scope as it was, whether it succeeds or fails. It keeps the
    sites that the ledger had, with their types, and everything else that it had. -/
theorem kept_after_call {l : Ledger} (h : l.Reachable) (c : Call) (s : Scope) :
    ∃ l', c.scopeAfter.Yields s l s l' ∧ l.Keeps l' ∧ l.sites <+: l'.sites := by
  have hcontinues := c.continues h.sound s
  exact ⟨c.ledger s l, c.yields_scopeAfter s l, hcontinues.keeps, hcontinues.since.sites⟩

/-- One table, of amounts. -/
def amountsSchema : Schema :=
  ⟨(∅ : Std.ExtTreeMap String Table).insert "transactions"
    ⟨(∅ : Std.ExtTreeMap String Field).insert "amount" ⟨.integer, none, false, none⟩⟩⟩

def amountsScope : Scope := .root amountsSchema "transactions" "transactions" true

/-- The ledger after a parameter was compiled in this scope. -/
def amountsLedger : Ledger :=
  (Call.expr (.string ":from")).ledger amountsScope (.root "transactions")

theorem reachable_amountsLedger : amountsLedger.Reachable := .call (.root _) _ _

/-- Another use of the parameter, in a test that gives it a type. -/
theorem kept_after_comparison : amountsLedger.Reachable ∧
    ∃ l', (Call.op "amount" (.object [("$gte", .string ":from")])).scopeAfter.Yields
      amountsScope amountsLedger amountsScope l' ∧
        amountsLedger.Keeps l' ∧ amountsLedger.sites <+: l'.sites :=
  ⟨reachable_amountsLedger, kept_after_call reachable_amountsLedger _ _⟩

end QuerySheet.Sql
