import QuerySheet.Proofs.Sql.Approximation
import QuerySheet.Proofs.Sql.Frames
import QuerySheet.Proofs.Sql.Kept

/-!
# Compiling twice

A part that is compiled once more, with a ledger that has what the first run left, compiles in the
same way. Its joins are there, and every parameter may be used as before; only its bind sites are
new.

* `Synced`: the sites of both runs are the same, but for their numbers and for what was there when
  the runs began;
* `Replays`: where the first run succeeds so does the second, with alike results (`renumbered`),
  and where it was cut off in a window so is the second. All parts and windows do that
  (`replays_renumbering`, `replays_windowOf`);
* `compiles_again`: an expression that has compiled compiles again after any other calls, to the
  same text, and adds nothing but sites for the same names and types.
-/

namespace QuerySheet.Sql

/-! ## 1. Two runs -/

variable {d : Nat} {o o' : Ledger} {s : Scope} {l l' l₁ c c' : Ledger}

def Site.shift (d : Nat) (site : Site) : Site := { site with id := site.id + d }

/-- Both runs have added the same sites, the second one with numbers that are `d` higher. -/
structure Synced (d : Nat) (o o' l c : Ledger) : Prop where
  sites : ∃ added, l.sites = o.sites ++ added ∧ c.sites = o'.sites ++ added.map (Site.shift d)
  siteCount : c.siteCount = l.siteCount + d

/-- The joins and the types of parameters of a ledger are those of another one too. -/
structure Fits (l c : Ledger) : Prop where
  joins : l.joins.Grows c.joins
  paramTypes : ∀ (name : String) (type : ValueType), l.paramTypes[name]? = some type →
    c.paramTypes[name]? = some type

/-- Nothing but sites was added. -/
def Ledger.OnlySites (l l' : Ledger) : Prop :=
  l' = { l with sites := l'.sites, siteCount := l'.siteCount }

theorem Ledger.OnlySites.trans (h : l.OnlySites l₁) (h' : l₁.OnlySites l') : l.OnlySites l' := by
  unfold Ledger.OnlySites at h h' ⊢
  rw [h', h]

theorem Fits.of_onlySites (h : Fits l c) (hc : c.OnlySites c') : Fits l c' := by
  unfold Ledger.OnlySites at hc
  rw [hc]
  exact ⟨h.joins, h.paramTypes⟩

theorem Fits.of_keeps (h : Fits l₁ c) (hl : l.Keeps l₁) : Fits l c :=
  ⟨hl.joins.trans h.joins, fun name type ht => h.paramTypes name type (hl.paramTypes name type ht)⟩

theorem Ledger.Keeps.fits (h : l.Keeps l') : Fits l l' := ⟨h.joins, h.paramTypes⟩

/-- A second run of a compilation does what the first one did, with a ledger that has what the
    first one left. -/
structure Replays (d : Nat) (o o' : Ledger) (k : Kind) (m m' : Compile k.Carrier) : Prop where
  preserves : Preserves d o o' k m m'
  yields : ∀ {s l a l' c}, l.Sound → Since o l → m.Yields s l a l' → Synced d o o' l c →
    Fits l' c → ∃ a' c', m'.Yields s c a' c' ∧ (renumbered d o o').rel k a a' ∧
      Synced d o o' l' c' ∧ c.OnlySites c'
  endless : ∀ {s l e l' c}, l.Sound → Since o l → m.outcome s l = (.error e, l') →
    e.cause = .endlessWindow → Synced d o o' l c → Fits l' c →
      ∃ c', m'.outcome s c = (.error e, c') ∧ c.OnlySites c'

/-! ## 2. Steps -/

section Steps

variable {k : Kind} {m m' : Compile k.Carrier}

/-- A step that is never cut off. -/
theorem replays_step (hpreserves : Preserves d o o' k m m')
    (huncut : ∀ s l, ¬ m.Fails s l .endlessWindow)
    (hyields : ∀ {s l a l' c}, l.Sound → Since o l → m.Yields s l a l' → Synced d o o' l c →
      Fits l' c → ∃ a' c', m'.Yields s c a' c' ∧ (renumbered d o o').rel k a a' ∧
        Synced d o o' l' c' ∧ c.OnlySites c') : Replays d o o' k m m' :=
  ⟨hpreserves, hyields, fun _ _ h hcause _ _ => absurd ⟨_, _, h, hcause⟩ (huncut _ _)⟩

theorem replays_pure (ho : o.Sound) {a a' : k.Carrier} (h : (renumbered d o o').rel k a a') :
    Replays d o o' k (pure a) (pure a') := by
  refine replays_step ((preserves_renumbering ho d o').pure h) (fun _ _ => Compile.fails_pure) ?_
  intro s l b l' c hl hs hb hc hfits
  obtain ⟨rfl, rfl⟩ := Compile.yields_pure.mp hb
  exact ⟨a', c, Compile.yields_pure.mpr ⟨rfl, rfl⟩, h, hc, rfl⟩

/-- What the second part of a run left has what the first one left. -/
theorem Replays.bind {k' : Kind} {f f' : k.Carrier → Compile k'.Carrier} (ho : o.Sound)
    (hm : Replays d o o' k m m')
    (hf : ∀ a a', (renumbered d o o').rel k a a' → Replays d o o' k' (f a) (f' a')) :
    Replays d o o' k' (m >>= f) (m' >>= f') where
  preserves := (preserves_renumbering ho d o').bind hm.preserves fun a a' h => (hf a a' h).preserves
  yields := by
    intro s l b l₂ c hl hs hyields hc hfits
    obtain ⟨a, l₁, ha, hb⟩ := Compile.yields_bind.mp hyields
    obtain ⟨hcontinues, a₀, ha₀⟩ := (hm.preserves s l hl hs).yields ha
    have hlater := ((hf a a₀ ha₀).preserves s l₁ hcontinues.sound hcontinues.since).yields hb
    obtain ⟨a', c₁, ha', hrel, hc₁, honly⟩ :=
      hm.yields hl hs ha hc (hfits.of_keeps hlater.1.keeps)
    obtain ⟨b', c₂, hb', hrel', hc₂, honly'⟩ :=
      (hf a a' hrel).yields hcontinues.sound hcontinues.since hb hc₁ (hfits.of_onlySites honly)
    exact ⟨b', c₂, Compile.yields_bind.mpr ⟨a', c₁, ha', hb'⟩, hrel', hc₂, honly.trans honly'⟩
  endless := by
    intro s l e l₂ c hl hs houtcome hcause hc hfits
    rcases Compile.error_bind.mp houtcome with ha | ⟨a, l₁, ha, hb⟩
    · obtain ⟨c₁, hc₁, honly⟩ := hm.endless hl hs ha hcause hc hfits
      exact ⟨c₁, Compile.error_bind.mpr (.inl hc₁), honly⟩
    · obtain ⟨hcontinues, a₀, ha₀⟩ := (hm.preserves s l hl hs).yields ha
      have hlater := ((hf a a₀ ha₀).preserves s l₁ hcontinues.sound hcontinues.since).of_error hb
      obtain ⟨a', c₁, ha', hrel, hc₁, honly⟩ := hm.yields hl hs ha hc (hfits.of_keeps hlater.keeps)
      obtain ⟨c₂, hc₂, honly'⟩ := (hf a a' hrel).endless hcontinues.sound hcontinues.since hb
        hcause hc₁ (hfits.of_onlySites honly)
      exact ⟨c₂, Compile.error_bind.mpr (.inr ⟨a', c₁, ha', hc₂⟩), honly.trans honly'⟩

theorem Replays.within (kind : FrameKind) (args : List Json) (ho : o.Sound)
    (hm : Replays d o o' k m m') :
    Replays d o o' k (Compile.within kind args m) (Compile.within kind args m') where
  preserves := (preserves_renumbering ho d o').within kind args hm.preserves
  yields hl hs hyields hc hfits := by
    obtain ⟨a', c', h, hrest⟩ := hm.yields hl hs (Compile.yields_within.mp hyields) hc hfits
    exact ⟨a', c', Compile.yields_within.mpr h, hrest⟩
  endless := by
    intro s l e l' c hl hs houtcome hcause hc hfits
    obtain ⟨e', hinner, rfl⟩ := Compile.error_within.mp houtcome
    obtain ⟨c', h, honly⟩ := hm.endless hl hs hinner hcause hc hfits
    exact ⟨c', Compile.error_within.mpr ⟨e', h, rfl⟩, honly⟩

/-- A field has no holes, and its joins are recalled. -/
theorem replays_compileField (ho : o.Sound) (name : String) :
    Replays d o o' .operand (Path.compileField name) (Path.compileField name) := by
  refine replays_step ((preserves_renumbering ho d o').compileField name)
    (fun s l => (uncut_steps s.orders).compileField name trivial s l rfl) ?_
  intro s l x l' c hl hs hx hc hfits
  obtain ⟨hadds, hrecalls⟩ := (remembers_compileField name s l hl.indexed).yields hx
  obtain ⟨-, sql, type, rfl, hholes⟩ := (compileField_reads name s l).yields hx
  refine ⟨_, c, hrecalls c hfits.joins, renumbered_of_not_param rfl ?_, ?_, rfl⟩
  · unfold Operand.fragment Operand.shift
    rw [Template.shift_of_holes hholes]
    rfl
  · rw [hadds.rest]
    exact ⟨hc.sites, hc.siteCount⟩

theorem replays_pushSite (ho : o.Sound) (name : String) :
    Replays d o o' .operand (return .ofParam (← Compile.pushSite name))
      (return .ofParam (← Compile.pushSite name)) := by
  refine replays_step ((preserves_renumbering ho d o').pushSite name) (fun s l hcut => ?_) ?_
  · obtain ⟨e, l', h, -⟩ := hcut
    cases h
  intro s l x l' c hl hs hx hc hfits
  cases hx
  obtain ⟨⟨added, hadded, hadded'⟩, hcount⟩ := hc
  have hid : c.siteCount + 1 = l.siteCount + 1 + d := by omega
  refine ⟨_, _, rfl, ⟨fun ref href => ?_, ?_⟩,
    ⟨⟨added ++ [⟨l.siteCount + 1, name, none⟩], ?_, ?_⟩, hid⟩, rfl⟩
  · cases href
    exact Nat.lt_succ_of_le hs.siteCount
  · exact congrArg (fun id => Operand.ofParam ⟨id, name⟩) hid
  · rw [← List.append_assoc, ← hadded]
  · rw [List.map_append, ← List.append_assoc, ← hadded']
    exact congrArg (fun id => c.sites ++ [(⟨id, name, none⟩ : Site)]) hid

theorem noted_shift (ref : ParamRef) (type : ValueType) (sites : List Site) :
    noted (ref.shift d) type (sites.map (Site.shift d)) =
      (noted ref type sites).map (Site.shift d) := by
  unfold noted
  rw [List.map_map, List.map_map]
  refine List.map_congr_left fun site _ => ?_
  have hid : (site.shift d).id = (ref.shift d).id ↔ site.id = ref.id := Nat.add_right_cancel_iff
  rw [Function.comp_apply, Function.comp_apply]
  by_cases hnote : site.id = ref.id ∧ site.type.isNone = true
  · rw [if_pos hnote, if_pos ⟨hid.mpr hnote.1, hnote.2⟩]
    rfl
  · rw [if_neg hnote, if_neg fun h => hnote ⟨hid.mp h.1, h.2⟩]

/-- The sites of both runs get their types together. -/
theorem Synced.noted (ho : o.Sound) (ho' : o'.Sound) (hd : o'.siteCount = o.siteCount + d)
    (hc : Synced d o o' l c) {ref : ParamRef} (hfresh : o.siteCount < ref.id) (type : ValueType) :
    ∃ added, noted ref type l.sites = o.sites ++ added ∧
      noted (ref.shift d) type c.sites = o'.sites ++ added.map (Site.shift d) := by
  obtain ⟨added, hadded, hadded'⟩ := hc.sites
  have hfresh' : o'.siteCount < (ref.shift d).id := by
    rw [hd]
    exact Nat.add_lt_add_right hfresh d
  refine ⟨Sql.noted ref type added, ?_, ?_⟩
  · rw [hadded, Sql.noted, List.map_append, ← Sql.noted, ← Sql.noted,
      noted_of_lt ho.numbered hfresh]
  · rw [hadded', Sql.noted, List.map_append, ← Sql.noted, ← Sql.noted,
      noted_of_lt ho'.numbered hfresh', noted_shift]

/-- The type that the first run has noted accepts the same use in the second one. -/
theorem replays_inferParam (ho : o.Sound) (ho' : o'.Sound) (hd : o'.siteCount = o.siteCount + d)
    (ref : ParamRef) (type : ValueType) (hfresh : o.siteCount < ref.id) :
    Replays d o o' .unit (Compile.inferParam ref type) (Compile.inferParam (ref.shift d) type) := by
  refine replays_step ((preserves_renumbering ho d o').inferParam ref type hfresh)
    (fun s l => (uncut_steps s.orders).inferParam ref type s l rfl) ?_
  intro s l u l' c hl hs hu hc hfits
  have hknown : ∃ known, c.paramTypes[ref.name]? = some known ∧ known.accepts type = true ∧
      l'.sites = noted ref type l.sites ∧ l'.siteCount = l.siteCount := by
    rw [Compile.Yields, outcome_inferParam] at hu
    split at hu
    · rename_i known hknown
      split at hu
      · rename_i haccepts
        cases hu
        exact ⟨known, hfits.paramTypes _ _ hknown, haccepts, rfl, rfl⟩
      · cases hu
    · cases hu
      exact ⟨type, hfits.paramTypes _ _ (by simp), type.accepts_self, rfl, rfl⟩
  obtain ⟨known, hknown, haccepts, hsites, hcount⟩ := hknown
  obtain ⟨added, hadded, hadded'⟩ := hc.noted ho ho' hd hfresh type
  refine ⟨(), { c with sites := noted (ref.shift d) type c.sites }, ?_, trivial,
    ⟨⟨added, hsites.trans hadded, hadded'⟩, hc.siteCount.trans (congrArg (· + d) hcount.symm)⟩, rfl⟩
  rw [Compile.Yields, outcome_inferParam, show (ref.shift d).name = ref.name from rfl, hknown]
  dsimp only
  rw [if_pos haccepts]

theorem replays_repeatSitesFrom (ho : o.Sound) {mark mark' : Nat}
    (h : (renumbered d o o').place mark mark') :
    Replays d o o' .unit (Compile.repeatSitesFrom mark) (Compile.repeatSitesFrom mark') := by
  refine replays_step ((preserves_renumbering ho d o').repeatSitesFrom h)
    (fun _ _ => Compile.not_fails_modify) ?_
  intro s l u l' c hl hs hu hc hfits
  rw [Compile.yields_modify.mp hu]
  obtain ⟨j, rfl, rfl⟩ := h
  obtain ⟨⟨added, hadded, hadded'⟩, hcount⟩ := hc
  refine ⟨(), _, rfl, trivial, ⟨⟨added ++ added.drop j, ?_, ?_⟩, hcount⟩, rfl⟩
  · show l.sites ++ l.sites.drop (o.sites.length + j) = _
    rw [hadded, List.drop_length_add_append, List.append_assoc]
  · show c.sites ++ c.sites.drop (o'.sites.length + j) = _
    rw [hadded', List.drop_length_add_append, List.map_append, List.map_drop, List.append_assoc]

theorem replays_renumbering (ho : o.Sound) (ho' : o'.Sound)
    (hd : o'.siteCount = o.siteCount + d) : Renumbering d o o' (Replays d o o') where
  pure := replays_pure ho
  fail cause hcause := replays_step ((preserves_renumbering ho d o').fail cause hcause)
    (fun _ _ h => hcause (Compile.fails_fail.mp h)) fun _ _ h => absurd h Compile.yields_fail
  bind hm hf := hm.bind ho hf
  within kind args _ _ hm := hm.within kind args ho
  withField field _ _ hm :=
    ⟨(preserves_renumbering ho d o').withField field hm.preserves,
      fun hl hs h => hm.yields hl hs h, fun hl hs h => hm.endless hl hs h⟩
  mark := by
    refine replays_step (preserves_renumbering ho d o').mark
      (fun s l => (uncut_steps s.orders).mark s l rfl) ?_
    intro s l mark l' c hl hs hmark hc hfits
    cases hmark
    obtain ⟨added, hadded, hadded'⟩ := hc.sites
    refine ⟨c.sites.length, c, rfl, ⟨added.length, ?_, ?_⟩, hc, rfl⟩
    · rw [hadded, List.length_append]
    · rw [hadded', List.length_append, List.length_map]
  compileField := replays_compileField ho
  pushSite := replays_pushSite ho
  inferParam := replays_inferParam ho ho' hd
  repeatSitesFrom := replays_repeatSitesFrom ho

/-! ## 3. Windows -/

theorem replays_byOrders (d : Nat) (o o' : Ledger) : ByOrders (Replays d o o') := by
  intro k m m' h
  refine ⟨?_, ?_, ?_⟩
  · exact preserves_byOrders d o o' fun orders =>
      have ⟨n, n', hn, heq⟩ := h orders
      ⟨n, n', hn.preserves, heq⟩
  · intro s l a l' c hl hs hyields hc hfits
    obtain ⟨n, n', hn, heq⟩ := h s.orders
    rw [Compile.Yields, (heq s l rfl).1] at hyields
    obtain ⟨a', c', hyields', hrest⟩ := hn.yields hl hs hyields hc hfits
    refine ⟨a', c', ?_, hrest⟩
    rw [Compile.Yields, (heq s c rfl).2]
    exact hyields'
  · intro s l e l' c hl hs houtcome hcause hc hfits
    obtain ⟨n, n', hn, heq⟩ := h s.orders
    rw [(heq s l rfl).1] at houtcome
    rw [(heq s c rfl).2]
    exact hn.endless hl hs houtcome hcause hc hfits

/-- A window that is cut off at once reports the same, whatever the ledger. -/
theorem replays_cut {m : Compile Template} {e : Scope → CompileError}
    (hm : ∀ s l, m.outcome s l = (.error (e s), l)) : Replays d o o' .template m m := by
  refine ⟨fun s l hl hs => ?_, ?_, ?_⟩
  · unfold Compile.After
    rw [hm]
    exact .refl hl hs
  · intro s l a l' c hl hs hyields
    rw [Compile.Yields, hm] at hyields
    cases hyields
  · intro s l e' l' c hl hs houtcome _ hc _
    rw [hm] at houtcome
    cases houtcome
    exact ⟨c, hm s c, rfl⟩

theorem replays_windowOf (ho : o.Sound) (ho' : o'.Sound) (hd : o'.siteCount = o.siteCount + d)
    (nesting : Nat) : Replays d o o' .template (windowOf nesting) (windowOf nesting) :=
  inStep_windowOf (replays_renumbering ho ho' hd).lockstep (replays_byOrders d o o')
    (replays_cut fun _ _ => rfl) nesting

end Steps

/-! ## 4. Expressions -/

/-- The same place in a query, where other entry points may be active. -/
structure Scope.Same (s s' : Scope) : Prop where
  schema : s'.schema = s.schema
  table : s'.table = s.table
  label : s'.label = s.label
  field : s'.field = s.field
  validateRefs : s'.validateRefs = s.validateRefs
  orders : s'.orders = s.orders

/-- Calls, whether they succeed or fail, lead from one ledger to another, in any scopes. -/
def Ledger.Calls : Ledger → Ledger → Prop :=
  Relation.ReflTransGen fun l l' => ∃ (call : Call) (s : Scope), l' = call.ledger s l

theorem Ledger.Calls.lasts (h : l.Calls l') (hl : l.Sound) : l'.Sound ∧ l.Keeps l' := by
  induction h with
  | refl => exact ⟨hl, .refl l⟩
  | tail _ hcall ih =>
    obtain ⟨call, s, rfl⟩ := hcall
    have hcontinues := call.continues ih.1 s
    exact ⟨hcontinues.sound, ih.2.trans hcontinues.keeps⟩

theorem replays_compileExpr (ho : o.Sound) (ho' : o'.Sound)
    (hd : o'.siteCount = o.siteCount + d) (e : Json) :
    Replays d o o' .operand (compileExpr e) (compileExpr e) :=
  inStep_part (replays_renumbering ho ho' hd).lockstep (.expr e) (Part.names_any _) fun _ =>
    replays_windowOf ho ho' hd maxNesting

theorem Scope.Same.yields {s' : Scope} (hs : s.Same s') {e : Json} {r : Operand}
    (h : (compileExpr e).Yields s l r l') : (compileExpr e).Yields s' l r l' := by
  obtain ⟨_, _, _, _, _, _, _⟩ := s
  obtain ⟨_, _, _, _, _, _, frames⟩ := s'
  obtain ⟨rfl, rfl, rfl, rfl, rfl, rfl⟩ := hs
  exact (anyFrames_exprWith (anyFrames_windowOf maxNesting) e _ frames l).trans h

/-- The names and types of sites, in order. -/
def bindings (sites : List Site) : List (String × Option ValueType) :=
  sites.map fun site => (site.name, site.type)

/-- What has compiled compiles again, after any further calls, to the same text of the same type.
    It adds no join and takes no alias, notes no other type of a parameter, and its new sites bind
    the same names as the same types. -/
theorem compiles_again {e : Json} {r : Operand} {s' : Scope} {l₂ : Ledger} (hl : l.Reachable)
    (h : (compileExpr e).Yields s l r l₁) (hcalls : l₁.Calls l₂) (hs : s.Same s') :
    ∃ r' l₃, (compileExpr e).Yields s' l₂ r' l₃ ∧
      r'.sql.text = r.sql.text ∧ r'.type = r.type ∧ r'.literal = r.literal ∧
      l₂.OnlySites l₃ ∧ ∃ new new', l₁.sites = l.sites ++ new ∧ l₃.sites = l₂.sites ++ new' ∧
        bindings new' = bindings new := by
  have hfirst := (replays_compileExpr (d := 0) hl.sound hl.sound rfl e).preserves s l hl.sound
    (.refl l)
  obtain ⟨hcontinues, -⟩ := hfirst.yields h
  obtain ⟨hsound, hkeeps⟩ := hcalls.lasts hcontinues.sound
  obtain ⟨d, hd⟩ := Nat.exists_eq_add_of_le (hcontinues.keeps.trans hkeeps).siteCount
  have hsynced : Synced d l l₂ l l₂ := ⟨⟨[], by simp⟩, hd⟩
  obtain ⟨r', l₃, hyields, ⟨-, rfl⟩, ⟨⟨new, hnew, hnew'⟩, -⟩, honly⟩ :=
    (replays_compileExpr hl.sound hsound hd e).yields hl.sound (.refl l) h hsynced hkeeps.fits
  refine ⟨_, l₃, hs.yields hyields, Template.text_shift _, rfl, rfl, honly, new, _, hnew, hnew', ?_⟩
  unfold bindings
  rw [List.map_map]
  rfl

theorem yields_parameter (s : Scope) (l : Ledger) :
    (compileExpr (.string ":from")).Yields s l (.ofParam ⟨l.siteCount + 1, "from"⟩)
      { l with
        siteCount := l.siteCount + 1
        sites := l.sites ++ [⟨l.siteCount + 1, "from", none⟩] } := by
  unfold compileExpr
  rw [exprWith.eq_def, Compile.yields_within]
  rfl

theorem yields_amountsLedger : (compileExpr (.string ":from")).Yields amountsScope
    (.root "transactions") (.ofParam ⟨1, "from"⟩) amountsLedger := by
  have hledger : amountsLedger = { Ledger.root "transactions" with
      siteCount := 1
      sites := [⟨1, "from", none⟩] } := by
    unfold amountsLedger Call.ledger Call.run
    rw [Compile.outcome_bind, yields_parameter]
    rfl
  rw [hledger]
  exact yields_parameter amountsScope (.root "transactions")

/-- A test in which the parameter turns out to be a number. -/
def amountsTest : Call := .op "amount" (.object [("$gte", .string ":from")])

/-- The parameter is compiled once more after the test. -/
theorem compiles_parameter_again : ∃ r l₃,
    (compileExpr (.string ":from")).Yields amountsScope
      (amountsTest.ledger amountsScope amountsLedger) r l₃ ∧
    r.sql.text = "?" ∧ r.type = .param ∧ r.literal = false ∧
      (amountsTest.ledger amountsScope amountsLedger).OnlySites l₃ ∧
      ∃ new new', amountsLedger.sites = [] ++ new ∧
        l₃.sites = (amountsTest.ledger amountsScope amountsLedger).sites ++ new' ∧
        bindings new' = bindings new :=
  compiles_again (.root "transactions") yields_amountsLedger
    (.single ⟨amountsTest, amountsScope, rfl⟩) ⟨rfl, rfl, rfl, rfl, rfl, rfl⟩

end QuerySheet.Sql
