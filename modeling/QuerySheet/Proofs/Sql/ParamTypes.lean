import QuerySheet.Proofs.Sql.Kept
import QuerySheet.Proofs.Sql.StatementContract

/-!
# Types of parameters

The types of parameters are noted while casts are compiled, by the number of an occurrence at its
bind sites and by its name for all later uses. Sites are written twice for equalities and moved for
joins in between.

* `Ledger.Typed`: a site that has a type has one that the recorded type of its name accepts, and
  sites with one number are of one parameter and type. `typing` is the contract that keeps it: an
  operand that is a parameter goes with the sites of its number (`Ledger.Binds`);
* `Reaches`: a run comes to a step. If the step fails, so does the run, and nothing happens after
  that but that joins are put back (`error_of_reaches`);
* `typed_of_compiled`: every ledger that compilations lead to is typed. They keep recorded types,
  and fail at a use of a parameter that its recorded type does not accept.
-/

namespace QuerySheet.Sql

variable {α β : Type} {s : Scope} {l l' l₁ : Ledger}

/-! ## 1. Sites and names with types -/

namespace Ledger

structure Typed (l : Ledger) : Prop where
  /-- The type of a site is one that the recorded type of its name accepts. -/
  accepted : ∀ site ∈ l.sites, ∀ type, site.type = some type →
    ∃ recorded, l.paramTypes[site.name]? = some recorded ∧ recorded.accepts type = true
  same : ∀ a ∈ l.sites, ∀ b ∈ l.sites, a.id = b.id → a.name = b.name ∧ a.type = b.type
  numbered : ∀ site ∈ l.sites, site.id ≤ l.siteCount

/-- An occurrence was numbered, and the sites with its number are sites of its parameter. -/
def Binds (l : Ledger) (ref : ParamRef) : Prop :=
  ref.id ≤ l.siteCount ∧ ∀ site ∈ l.sites, site.id = ref.id → site.name = ref.name

/-- Recorded types stay, and so do the parameters that numbers stand for. -/
structure Grows (l l' : Ledger) : Prop where
  types : ∀ (name : String) (type : ValueType), l.paramTypes[name]? = some type →
    l'.paramTypes[name]? = some type
  binds : ∀ ref, l.Binds ref → l'.Binds ref

theorem typed_root (table : String) : (root table).Typed :=
  ⟨fun _ h => (nomatch h), fun _ h => (nomatch h), fun _ h => (nomatch h)⟩

theorem Grows.refl (l : Ledger) : l.Grows l := ⟨fun _ _ h => h, fun _ h => h⟩

theorem Grows.trans (h : l.Grows l₁) (h' : l₁.Grows l') : l.Grows l' :=
  ⟨fun name type ht => h'.types name type (h.types name type ht),
    fun ref href => h'.binds ref (h.binds ref href)⟩

/-- Sites are left out, written again or moved, and nothing else happens to them. -/
structure Rearranges (l l' : Ledger) : Prop where
  sites : ∀ site ∈ l'.sites, site ∈ l.sites
  paramTypes : l'.paramTypes = l.paramTypes
  siteCount : l'.siteCount = l.siteCount

namespace Rearranges

theorem refl (l : Ledger) : l.Rearranges l := ⟨fun _ h => h, rfl, rfl⟩

theorem trans (h : l.Rearranges l₁) (h' : l₁.Rearranges l') : l.Rearranges l' :=
  ⟨fun site hsite => h.sites site (h'.sites site hsite), h'.paramTypes.trans h.paramTypes,
    h'.siteCount.trans h.siteCount⟩

theorem typed (h : l.Rearranges l') (hl : l.Typed) : l'.Typed where
  accepted site hsite := h.paramTypes ▸ hl.accepted site (h.sites site hsite)
  same a ha b hb := hl.same a (h.sites a ha) b (h.sites b hb)
  numbered site hsite := h.siteCount ▸ hl.numbered site (h.sites site hsite)

theorem grows (h : l.Rearranges l') : l.Grows l' where
  types _ _ ht := h.paramTypes ▸ ht
  binds _ href := ⟨h.siteCount ▸ href.1, fun site hsite => href.2 site (h.sites site hsite)⟩

end Rearranges

end Ledger

/-! ## 2. Steps -/

/-- A new site has a number that no site had before. -/
theorem typed_pushed (l' : Ledger) {name : String} (hl : l.Typed)
    (hsites : l'.sites = l.sites ++ [⟨l.siteCount + 1, name, none⟩])
    (hcount : l'.siteCount = l.siteCount + 1) (htypes : l'.paramTypes = l.paramTypes) :
    l'.Typed ∧ l.Grows l' ∧ l'.Binds ⟨l.siteCount + 1, name⟩ := by
  have hsite {site : Site} (h : site ∈ l'.sites) :
      site ∈ l.sites ∨ site = ⟨l.siteCount + 1, name, none⟩ := by
    rw [hsites] at h
    exact (List.mem_append.mp h).imp_right List.mem_singleton.mp
  have hold {site : Site} (h : site ∈ l.sites) : site.id ≠ l.siteCount + 1 :=
    Nat.ne_of_lt (Nat.lt_succ_of_le (hl.numbered site h))
  refine ⟨⟨fun site h type htype => ?_, fun a ha b hb hid => ?_, fun site h => ?_⟩,
    ⟨fun _ _ ht => htypes ▸ ht, fun ref href => ⟨?_, fun site h hid => ?_⟩⟩,
    Nat.le_of_eq hcount.symm, fun site h hid => ?_⟩
  · rcases hsite h with h | rfl
    · exact htypes ▸ hl.accepted site h type htype
    · cases htype
  · rcases hsite ha with ha | rfl <;> rcases hsite hb with hb | rfl
    · exact hl.same a ha b hb hid
    · exact absurd hid (hold ha)
    · exact absurd hid.symm (hold hb)
    · exact ⟨rfl, rfl⟩
  · rw [hcount]
    rcases hsite h with h | rfl
    · exact Nat.le_succ_of_le (hl.numbered site h)
    · exact Nat.le_refl _
  · rw [hcount]
    exact Nat.le_succ_of_le href.1
  · rcases hsite h with h | rfl
    · exact href.2 site h hid
    · exact absurd (hid ▸ href.1) (Nat.not_succ_le_self _)
  · rcases hsite h with h | rfl
    · exact absurd hid (hold h)
    · rfl

theorem mem_noted {ref : ParamRef} {type : ValueType} {sites : List Site} {site : Site}
    (h : site ∈ noted ref type sites) : ∃ before ∈ sites, site.id = before.id ∧
      site.name = before.name ∧ site.type =
        if before.id = ref.id ∧ before.type.isNone = true then some type else before.type := by
  obtain ⟨before, hbefore, rfl⟩ := List.mem_map.mp h
  refine ⟨before, hbefore, ?_⟩
  split
  · exact ⟨rfl, rfl, rfl⟩
  · exact ⟨rfl, rfl, rfl⟩

theorem Ledger.Binds.noted {ref ref' : ParamRef} {type : ValueType} (h : l.Binds ref)
    (hsites : l'.sites = noted ref' type l.sites) (hcount : l'.siteCount = l.siteCount) :
    l'.Binds ref := by
  refine ⟨hcount ▸ h.1, fun site hsite hid => ?_⟩
  obtain ⟨before, hbefore, hid', hname, -⟩ := mem_noted (hsites ▸ hsite)
  rw [hname]
  exact h.2 before hbefore (hid' ▸ hid)

/-- A type is noted at the sites of an occurrence. They have the name of the occurrence, and its
    recorded type accepts the one that is noted. -/
theorem typed_noted (l' : Ledger) {ref : ParamRef} {type recorded : ValueType} (hl : l.Typed)
    (href : l.Binds ref) (hsites : l'.sites = noted ref type l.sites)
    (hcount : l'.siteCount = l.siteCount)
    (htypes : ∀ (name : String) (type : ValueType), l.paramTypes[name]? = some type →
      l'.paramTypes[name]? = some type)
    (hrecorded : l'.paramTypes[ref.name]? = some recorded)
    (haccepts : recorded.accepts type = true) : l'.Typed ∧ l.Grows l' := by
  refine ⟨⟨fun site h t ht => ?_, fun a ha b hb hid => ?_, fun site h => ?_⟩,
    htypes, fun _ h => h.noted hsites hcount⟩
  · obtain ⟨before, hbefore, -, hname, htype⟩ := mem_noted (hsites ▸ h)
    rw [htype] at ht
    rw [hname]
    split at ht
    · rename_i hhere
      cases ht
      rw [href.2 before hbefore hhere.1]
      exact ⟨recorded, hrecorded, haccepts⟩
    · obtain ⟨known, hknown, haccepts⟩ := hl.accepted before hbefore t ht
      exact ⟨known, htypes _ _ hknown, haccepts⟩
  · obtain ⟨a', ha', hid₁, hname₁, htype₁⟩ := mem_noted (hsites ▸ ha)
    obtain ⟨b', hb', hid₂, hname₂, htype₂⟩ := mem_noted (hsites ▸ hb)
    have hsame : a'.id = b'.id := hid₁ ▸ hid₂ ▸ hid
    obtain ⟨hname, htype⟩ := hl.same a' ha' b' hb' hsame
    rw [hname₁, hname₂, htype₁, htype₂, hsame, htype]
    exact ⟨hname, rfl⟩
  · rw [hcount]
    exact numbered_noted hl.numbered ref type site (hsites ▸ h)

/-- Sites are typed as their parameters, and operands go with the sites of their numbers. -/
def typing : Contract where
  inv _ := Ledger.Typed
  grows := Ledger.Grows
  operand o l := ∀ ref, o.param? = some ref → l.Binds ref
  error _ := True

theorem typing_of_rearranges {m : Compile α} {Q : α → Ledger → Prop}
    (h : l.Rearranges (m.outcome s l).2) (hQ : ∀ a l', m.Yields s l a l' → Q a l') :
    typing.Meets m Q typing.error s l := by
  intro hl
  rcases hm : m.outcome s l with ⟨e | a, l'⟩
  · rw [hm] at h
    exact ⟨h.typed hl, h.grows, trivial⟩
  · rw [hm] at h
    exact ⟨h.typed hl, h.grows, hQ a l' hm⟩

theorem typing_inferParam {o : Operand} {ref : ParamRef} (type : ValueType) (s : Scope)
    (ho : o.param? = some ref) (hbinds : typing.operand o l) :
    typing.Meets (Compile.inferParam ref type) (fun _ _ => True) typing.error s l := by
  intro hl
  have href := hbinds ref ho
  rw [outcome_inferParam]
  cases hknown : l.paramTypes[ref.name]? with
  | none =>
    have htypes (name : String) (known : ValueType) (h : l.paramTypes[name]? = some known) :
        (l.paramTypes.insert ref.name type)[name]? = some known := by
      have hne : ref.name ≠ name := by
        rintro rfl
        rw [hknown] at h
        cases h
      rw [Std.ExtTreeMap.getElem?_insert, if_neg (by simpa using hne), h]
    have hrecorded : (l.paramTypes.insert ref.name type)[ref.name]? = some type :=
      Std.ExtTreeMap.getElem?_insert_self
    have h := typed_noted { l with
      sites := noted ref type l.sites, paramTypes := l.paramTypes.insert ref.name type }
      hl href rfl rfl htypes hrecorded type.accepts_self
    exact ⟨h.1, h.2, trivial⟩
  | some recorded =>
    dsimp only
    cases haccepts : recorded.accepts type with
    | false => exact ⟨hl, .refl l, trivial⟩
    | true =>
      have h := typed_noted { l with sites := noted ref type l.sites } hl href rfl rfl
        (fun _ _ h => h) hknown haccepts
      exact ⟨h.1, h.2, trivial⟩

/-- Only the joins and the number of aliases are changed. -/
theorem typing_of_joins {m : Compile α}
    (h : ∀ {P : (α : Type) → Compile α → Compile α → Prop}, Compile.Closed P →
      (∀ g, ChangesJoins g → Compile.Holds P (modify g : Compile Unit)) → Compile.Holds P m) :
    Compile.Moves (fun _ => Ledger.Rearranges) m := by
  have htrace : Compile.Trace fun _ => Ledger.Rearranges :=
    ⟨fun _ => .refl, fun _ _ _ _ => .trans, fun _ _ _ _ h => h⟩
  exact h htrace.closed (moves_joins fun _ _ _ _ => ⟨fun _ h => h, rfl, rfl⟩)

theorem typing_compileField (name : String) :
    typing.Gives (Path.compileField name) typing.operand := by
  intro s l
  have hmoves : Compile.Moves (fun _ => Ledger.Rearranges) (Path.compileField name) :=
    typing_of_joins fun hP hjoins => holds_compileField hP hjoins name
  refine typing_of_rearranges (hmoves s l) fun o l' hyields ref href => ?_
  obtain ⟨-, sql, type, rfl, -⟩ := (compileField_reads name s l).yields hyields
  cases href

theorem typing_lawful : typing.Lawful where
  refl := .refl
  trans := .trans
  rescope _ _ _ _ h := h
  lasting hgrows ho ref href := hgrows.binds ref (ho ref href)
  text ho ref href := by
    rw [ho] at href
    cases href
  plain _ := trivial
  unknownOperator _ := trivial
  miscalled _ := trivial
  left _ _ := trivial
  compileField := typing_compileField
  pushSite name s l hl := by
    obtain ⟨htyped, hgrows, hbinds⟩ := typed_pushed { l with
      siteCount := l.siteCount + 1, sites := l.sites ++ [⟨l.siteCount + 1, name, none⟩] }
      hl rfl rfl rfl
    refine ⟨htyped, hgrows, ?_⟩
    rintro ref href
    cases href
    exact hbinds
  inferParam := typing_inferParam
  repeatSitesFrom _ _ _ := typing_of_rearranges
    ⟨fun _ h => Site.mem_of_mem_repeatFrom h, rfl, rfl⟩ fun _ _ _ => trivial

theorem typing_clauses : typing.Clauses where
  toLawful := typing_lawful
  notes _ _ hl := ⟨⟨hl.accepted, hl.same, hl.numbered⟩, fun _ _ h => h, fun _ h => h⟩
  moveSites _ _ _ _ := typing_of_rearranges
    ⟨fun _ h => Site.mem_of_mem_move h, rfl, rfl⟩ fun _ _ _ => trivial
  unknownTable _ _ := trivial
  joined _ _ hl := ⟨hl.accepted, hl.same, hl.numbered⟩
  returned _ hl hgrows := ⟨⟨hl.accepted, hl.same, hl.numbered⟩, hgrows.types, hgrows.binds⟩

/-! ## 3. Compilations -/

/-- Something that is compiled: what an entry point is called for, or a whole query. -/
inductive Job where
  | call (c : Call)
  | query (policy : Policy) (q : Query)

namespace Job

def run : Job → Compile Unit
  | .call c => c.run
  | .query policy q => do let _ ← compilePieces policy q

/-- The ledger that is left, whether the compilation succeeds or fails. -/
def ledger (j : Job) (s : Scope) (l : Ledger) : Ledger := (j.run.outcome s l).2

theorem typing_run (j : Job) : typing.Runs j.run := by
  have hC := typing_lawful
  have hdrop {α : Type} {m : Compile α} {Q : α → Ledger → Prop} (h : typing.Gives m Q) :
      typing.Runs (do let _ ← m) := fun s l => hC.returns (h s l)
  have hpath {α : Type} {m : Compile α} (h : Compile.Moves (fun _ => Ledger.Rearranges) m) :
      typing.Runs m := fun s l => typing_of_rearranges (h s l) fun _ _ _ => trivial
  cases j with
  | query policy q => exact hdrop (meets_compilePieces typing_clauses policy q)
  | call c =>
    cases c with
    | expr e => exact hdrop (meets_compileExpr hC e)
    | function fields => exact hdrop (meets_compileFunction hC fields)
    | op field test => exact hdrop (meets_compileOp hC field test)
    | conditions conds => exact hdrop (meets_compileConditions hC conds)
    | and conds => exact hdrop (meets_compileAnd hC conds)
    | or conds => exact hdrop (meets_compileOr hC conds)
    | orderBy orders => exact hdrop (meets_compileOrderBy hC orders)
    | path name =>
      exact hdrop (hpath (typing_of_joins fun hP hjoins =>
        holds_resolve (pathSteps_of_joins hP hjoins) name))
    | refPath parent field target =>
      exact hdrop (hpath (typing_of_joins fun hP hjoins =>
        holds_resolveRef hP hjoins parent field target))

theorem typed (hl : l.Typed) (j : Job) (s : Scope) :
    (j.ledger s l).Typed ∧ l.Grows (j.ledger s l) :=
  (j.typing_run s l).ledger hl

end Job

/-- The ledgers that compilations lead to, one after the other and in any scopes, whether they
    succeed or fail. -/
inductive Ledger.Compiled : Ledger → Prop
  | root (table : String) : Compiled (.root table)
  | job {l : Ledger} (h : Compiled l) (j : Job) (s : Scope) : Compiled (j.ledger s l)

theorem Ledger.Compiled.typed (h : l.Compiled) : l.Typed := by
  induction h with
  | root table => exact typed_root table
  | job _ j s ih => exact (j.typed ih s).1

/-! ## 4. Uses that are refused -/

/-- A run comes to the step `k`, in the scope `s₁` and with the ledger `l₁`. -/
inductive Reaches {β : Type} (k : Compile β) (s₁ : Scope) (l₁ : Ledger) :
    {α : Type} → Compile α → Scope → Ledger → Prop
  | here : Reaches k s₁ l₁ k s₁ l₁
  | first {α γ : Type} {m : Compile α} {f : α → Compile γ} {s : Scope} {l : Ledger}
      (h : Reaches k s₁ l₁ m s l) : Reaches k s₁ l₁ (m >>= f) s l
  | next {α γ : Type} {m : Compile α} {f : α → Compile γ} {s : Scope} {l l' : Ledger} {a : α}
      (hm : m.Yields s l a l') (h : Reaches k s₁ l₁ (f a) s l') : Reaches k s₁ l₁ (m >>= f) s l
  | within {α : Type} {m : Compile α} {s : Scope} {l : Ledger} (kind : FrameKind)
      (args : List Json) (h : Reaches k s₁ l₁ m { s with frames := kind :: s.frames } l) :
      Reaches k s₁ l₁ (Compile.within kind args m) s l
  | withReader {α : Type} {m : Compile α} {s : Scope} {l : Ledger} (g : Scope → Scope)
      (h : Reaches k s₁ l₁ m (g s) l) : Reaches k s₁ l₁ (withReader g m) s l
  | withJoined {α : Type} {m : Compile α} {s : Scope} {l : Ledger} (j : Join)
      (h : Reaches k s₁ l₁ m (joinedScope s j) { l with joins := .empty }) :
      Reaches k s₁ l₁ (withJoined j m) s l

/-- A run that comes to a step that fails fails for the same cause, and from then on only joins
    are put back. -/
theorem error_of_reaches {k : Compile β} {s₁ : Scope} {m : Compile α} {e : CompileError}
    {l₂ : Ledger} (h : Reaches k s₁ l₁ m s l) (hk : k.outcome s₁ l₁ = (.error e, l₂)) :
    ∃ e' l', m.outcome s l = (.error e', l') ∧ e'.cause = e.cause ∧
      ∃ joins, l' = { l₂ with joins } := by
  induction h with
  | here => exact ⟨e, l₂, hk, rfl, l₂.joins, rfl⟩
  | first _ ih =>
    obtain ⟨e', l', hm, hcause⟩ := ih
    exact ⟨e', l', Compile.error_bind.mpr (.inl hm), hcause⟩
  | next hm _ ih =>
    obtain ⟨e', l', hf, hcause⟩ := ih
    exact ⟨e', l', Compile.error_bind.mpr (.inr ⟨_, _, hm, hf⟩), hcause⟩
  | within kind args _ ih =>
    obtain ⟨e', l', hm, hcause⟩ := ih
    exact ⟨_, l', Compile.error_within.mpr ⟨e', hm, rfl⟩, hcause⟩
  | withReader g _ ih => exact ih
  | @withJoined _ _ _ l j _ ih =>
    obtain ⟨e', l', hm, hcause, joins, rfl⟩ := ih
    rw [outcome_withJoined, hm]
    exact ⟨e', _, rfl, hcause, l.joins, rfl⟩

/-- The call of a function, unless its arguments are conditions. -/
theorem callWith_of_ne_condition {window : Compile Template} {name : String} {raw : Json}
    {f : Function} (hdollar : hasDollar name = true) (hf : Function.ofName? name = some f)
    (hne : f ≠ .condition) : callWith window name raw = (do
      f.checkArity (arguments raw).length
      let args ← argumentsWith window f.parameters (arguments raw)
      f.apply args window) := by
  rw [callWith.eq_def, hdollar, hf]
  cases f <;> first | rfl | exact absurd rfl hne

/-- A parameter is used as another type than it has by being cast. -/
theorem reaches_cast {o : Operand} {ref : ParamRef} {type : ValueType} (ho : o.param? = some ref)
    (htype : o.type ≠ type) : Reaches (Compile.inferParam ref type) s l (o.cast type) s l := by
  unfold Operand.cast
  rw [if_neg htype, ho]
  exact .first .here

/-- Of a ledger that compilations lead to the sites are typed as their parameters. A further
    compilation keeps the recorded types. If it comes to a use of a parameter that the recorded
    type does not accept, it fails for that, and leaves the sites and the recorded types as they
    were at the use. -/
theorem typed_of_compiled (h : l.Compiled) : l.Typed ∧ ∀ (j : Job) (s : Scope),
    (∀ (name : String) (type : ValueType), l.paramTypes[name]? = some type →
      (j.ledger s l).paramTypes[name]? = some type) ∧
    ∀ (ref : ParamRef) (type recorded : ValueType) (s₁ : Scope) (l₁ : Ledger),
      Reaches (Compile.inferParam ref type) s₁ l₁ j.run s l →
      l₁.paramTypes[ref.name]? = some recorded → recorded.accepts type = false →
      ∃ e l', j.run.outcome s l = (.error e, l') ∧
        e.cause = .paramConflict ref.name recorded type ∧ l'.sites = l₁.sites ∧
        l'.paramTypes = l₁.paramTypes := by
  refine ⟨h.typed, fun j s => ⟨(j.typed h.typed s).2.types, ?_⟩⟩
  intro ref type recorded s₁ l₁ hreaches hrecorded haccepts
  have hrefused : (Compile.inferParam ref type).outcome s₁ l₁ =
      (.error (.ofCause (.paramConflict ref.name recorded type)), l₁) := by
    rw [outcome_inferParam, hrecorded]
    dsimp only
    rw [haccepts]
    rfl
  obtain ⟨e, l', hrun, hcause, joins, rfl⟩ := error_of_reaches hreaches hrefused
  exact ⟨e, _, hrun, hcause, rfl, rfl⟩

/-- A test of the amount against a parameter. -/
def compared : Job := .call (.conditions (.array [.object [("amount", .string ":from")]]))

/-- The ledger after the test, which has made an integer of the parameter. -/
def comparedLedger : Ledger := compared.ledger amountsScope (.root "transactions")

theorem recorded_of_compared : comparedLedger.paramTypes["from"]? = some .integer := by
  have hrun : compared.run =
      (do let _ ← compileConditions (.array [.object [("amount", .string ":from")]])) := rfl
  rw [comparedLedger, Job.ledger, hrun, compileConditions,
    conditionsWith_equal window ":from" (by decide) (by decide)]
  decide +kernel

/-- The parameter in lower case, as if it were a string. -/
def lowered : Job := .call (.expr (.object [("$lower", .string ":from")]))

theorem compileExpr_lowered : compileExpr (.object [("$lower", .string ":from")]) =
    Compile.within .expr [.object [("$lower", .string ":from")]]
      (Compile.within .function [.object [("$lower", .string ":from")]] (do
        Function.lower.checkArity 1
        let o ← Compile.within .expr [.string ":from"] (compileText ":from")
        let o ← o.cast .string
        Function.lower.apply [o] window)) := by
  rw [compileExpr, exprWith.eq_def]
  dsimp only
  rw [functionWith.eq_def]
  dsimp only
  rw [callWith_of_ne_condition (f := .lower) (by decide) rfl (by decide)]
  simp only [Sql.arguments, Function.parameters, argumentsWith, exprWith, Parameter.admit,
    bind_assoc, pure_bind]
  rfl

theorem reaches_lowered (s : Scope) (l : Ledger) : ∃ s₁ l₁,
    Reaches (Compile.inferParam ⟨l.siteCount + 1, "from"⟩ .string) s₁ l₁ lowered.run s l ∧
      l₁.sites = l.sites ++ [⟨l.siteCount + 1, "from", none⟩] ∧ l₁.paramTypes = l.paramTypes := by
  have hcast (s₁ : Scope) (l₁ : Ledger) :
      Reaches (Compile.inferParam ⟨l.siteCount + 1, "from"⟩ .string) s₁ l₁
        ((Operand.ofParam ⟨l.siteCount + 1, "from"⟩).cast .string) s₁ l₁ :=
    reaches_cast rfl nofun
  have hrun : lowered.run =
      (do let _ ← compileExpr (.object [("$lower", .string ":from")])) := rfl
  rw [hrun, compileExpr_lowered]
  refine ⟨_, _, .first (.within _ _ (.within _ _ (.next rfl (.next rfl (.first (hcast _ _)))))), ?_⟩
  exact ⟨rfl, rfl⟩

/-- A parameter that was compared with an amount is no string, and the sites stay as they are. -/
theorem typed_of_compared : comparedLedger.Compiled ∧
    comparedLedger.paramTypes["from"]? = some .integer ∧
    ∃ e l', lowered.run.outcome amountsScope comparedLedger = (.error e, l') ∧
      e.cause = .paramConflict "from" .integer .string ∧
      l'.sites = comparedLedger.sites ++ [⟨comparedLedger.siteCount + 1, "from", none⟩] ∧
      l'.paramTypes = comparedLedger.paramTypes := by
  have hcompiled : comparedLedger.Compiled := .job (.root _) compared amountsScope
  obtain ⟨-, hfurther⟩ := typed_of_compiled hcompiled
  obtain ⟨s₁, l₁, hreaches, hsites, htypes⟩ := reaches_lowered amountsScope comparedLedger
  obtain ⟨e, l', hrun, hcause, hsites', htypes'⟩ := (hfurther lowered amountsScope).2 _ _ .integer
    s₁ l₁ hreaches (htypes ▸ recorded_of_compared) (by decide)
  exact ⟨hcompiled, recorded_of_compared, e, l', hrun, hcause, hsites'.trans hsites,
    htypes'.trans htypes⟩

end QuerySheet.Sql
