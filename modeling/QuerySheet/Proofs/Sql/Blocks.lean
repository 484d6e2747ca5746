import QuerySheet.Proofs.Sql.Introduced
import QuerySheet.Proofs.Sql.Kept

/-!
# Bind sites by clauses

Each phase of a statement adds its bind sites behind those that are there, and only the sites of the
joins are moved, once. So the sites of a statement are blocks, in the order of its text.

* `Site.exchanges_move`: moving sites exchanges two blocks and leaves the order inside of them;
* `Appends`: what is compiled adds sites and changes none that were there (`appends_compileSelect`
  and so on, for every clause);
* `Ledger.InPushOrder`: the sites stand in the order in which they were pushed, up to the end of
  the joins (`Phases.Valid.inPushOrder`);
* `SiteBlocks`: the sites that each phase adds, with one block for each join;
* `sites_of_compile`: the sites of a statement are its blocks.
-/

namespace QuerySheet.Sql

open Compile (Moves Trace)

/-! ## 1. Moved sites -/

namespace Site

/-- Two neighbouring blocks are exchanged, the first from a target and the second from a source on.
    Positions beyond the end are the end, and a target behind the source is the source. -/
def Exchanges (source target : Nat) (sites sites' : List Site) : Prop :=
  ∃ front displaced moved, sites = front ++ displaced ++ moved ∧
    sites' = front ++ moved ++ displaced ∧
    front.length = min target (min source sites.length) ∧
    (front ++ displaced).length = min source sites.length

theorem take_append_between (sites : List Site) {target source : Nat} (h : target ≤ source) :
    sites.take target ++ (sites.take source).drop target = sites.take source := by
  have hfront : sites.take target = (sites.take source).take target := by
    rw [List.take_take, Nat.min_eq_left h]
  rw [hfront, List.take_append_drop]

/-- Moved sites keep their order, and so do those that make room for them. -/
theorem exchanges_move (sites : List Site) (source target : Nat) :
    Exchanges source target sites (move sites source target) := by
  have hsource : min source sites.length ≤ sites.length := Nat.min_le_right _ _
  have htarget : min target (min source sites.length) ≤ min source sites.length :=
    Nat.min_le_right _ _
  have hstart := take_append_between sites htarget
  refine ⟨_, _, _, ?_, rfl, ?_, ?_⟩
  · rw [hstart, List.take_append_drop]
  · exact List.length_take_of_le (Nat.le_trans htarget hsource)
  · rw [hstart, List.length_take_of_le hsource]

/-- Where the target and the source are the ends of blocks the blocks are exchanged. -/
theorem move_append (front displaced moved : List Site) :
    move (front ++ displaced ++ moved) (front ++ displaced).length front.length =
      front ++ moved ++ displaced := by
  obtain ⟨front', displaced', moved', hsites, hmove, hfront, hboth⟩ :=
    exchanges_move (front ++ displaced ++ moved) (front ++ displaced).length front.length
  rw [hmove]
  have hlength : (front ++ displaced).length ≤ (front ++ displaced ++ moved).length := by
    simp only [List.length_append]
    omega
  rw [Nat.min_eq_left hlength] at hfront hboth
  rw [Nat.min_eq_left (by rw [List.length_append]; omega)] at hfront
  obtain ⟨hstart, rfl⟩ := List.append_inj hsites hboth.symm
  obtain ⟨rfl, rfl⟩ := List.append_inj hstart hfront.symm
  rfl

theorem move_perm (sites : List Site) (source target : Nat) :
    (move sites source target).Perm sites := by
  obtain ⟨front, displaced, moved, hsites, hmove, -⟩ := exchanges_move sites source target
  rw [hmove, hsites, List.append_assoc, List.append_assoc]
  exact List.Perm.append_left front List.perm_append_comm

end Site

/-! ## 2. Clauses add sites -/

/-- Sites are added, and those that were there are unchanged. -/
def Appends (_ : Scope) (l l' : Ledger) : Prop := l.Sound → l'.Sound ∧ l.sites <+: l'.sites

theorem trace_appends : Trace Appends where
  refl _ l hl := ⟨hl, List.prefix_refl _⟩
  trans _ _ _ _ h h' hl := by
    obtain ⟨hl₁, hsites⟩ := h hl
    obtain ⟨hl₂, hsites'⟩ := h' hl₁
    exact ⟨hl₂, hsites.trans hsites'⟩
  frames _ _ _ _ h := h

section Clauses

variable {α β : Type} {policy : Policy} {q : Query}

/-- What an entry point of the compiler does, alone. Types are filled in later, but only those of
    sites that were numbered in the same call. -/
theorem appends_of_call {m : Compile α} (c : Call) (h : c.run = do let _ ← m) :
    Moves Appends m := by
  intro s l hl
  have hledger : c.ledger s l = (m.outcome s l).2 := by
    rw [Call.ledger, h, Compile.outcome_bind]
    split <;> rename_i hm
    · rw [hm]
      rfl
    · rw [hm]
  have hcontinues := c.continues hl s
  rw [hledger] at hcontinues
  exact ⟨hcontinues.sound, hcontinues.since.sites⟩

theorem appends_compileExpr (e : Json) : Moves Appends (compileExpr e) :=
  appends_of_call (.expr e) rfl

theorem appends_setOutputType (name : String) (type : ValueType) :
    Moves Appends (setOutputType name type) :=
  fun _ _ hl => ⟨⟨hl.indexed, hl.numbered⟩, List.prefix_refl _⟩

theorem appends_withReader {m : Compile α} (g : Scope → Scope) (h : Moves Appends m) :
    Moves Appends (withReader g m) := fun s l => h (g s) l

/-- A result that is made of another one adds nothing. -/
theorem appends_map {m : Compile α} {f : α → β} (h : Moves Appends m) :
    Moves Appends (do return f (← m)) := .bind trace_appends h fun _ => .pure trace_appends _

theorem appends_mapM {f : α → Compile β} (xs : List α) (hf : ∀ x, Moves Appends (f x)) :
    Moves Appends (xs.mapM f) := by
  have hxs : Compile.Holds (Compile.Follows Appends) (xs.mapM f) :=
    trace_appends.closed.mapM xs fun x _ => hf x
  exact hxs

theorem appends_column (o : Operand) (name : String) : Moves Appends (column o name) :=
  appends_map (appends_setOutputType name o.type)

theorem appends_allColumns : Moves Appends allColumns := by
  have hclosed := trace_appends.closed
  exact .bind trace_appends (.read trace_appends) fun _ =>
    .bind trace_appends (hclosed.require _ _ (by simp)) fun _ =>
      appends_map (hclosed.forM _ fun _ => appends_setOutputType _ _)

theorem appends_compileNamedColumn (orders : List Json) (name : String) (value : Json) :
    Moves Appends (compileNamedColumn orders name value) := by
  unfold compileNamedColumn
  split
  · exact .fail trace_appends _
  · have hcolumn (o : Operand) : Moves Appends (column o name) := appends_column o name
    split
    · exact .bind trace_appends (appends_compileExpr _) hcolumn
    · exact .bind trace_appends (appends_withReader _ (appends_of_call (.function _) rfl)) hcolumn
    · exact .bind trace_appends (appends_compileExpr _) hcolumn

theorem appends_compileSelect (q : Query) : Moves Appends (compileSelect q) := by
  have hitem (item : Json) : Moves Appends (compileSelectItem q.orders item) := by
    unfold compileSelectItem
    split
    · split
      · exact appends_map appends_allColumns
      · exact .bind trace_appends (appends_compileExpr _) fun o => appends_map (appends_column o _)
    · exact appends_mapM _ fun field => appends_compileNamedColumn _ _ _
    · exact .fail trace_appends _
  exact .within trace_appends _ _ (appends_map (appends_mapM _ hitem))

theorem appends_compileFilters (filters : List Json) : Moves Appends (compileFilters filters) :=
  .within trace_appends _ _ (appends_of_call (.and (.array filters)) rfl)

theorem appends_compileTableFilters (policy : Policy) (table : String) :
    Moves Appends (compileTableFilters policy table) := by
  unfold compileTableFilters
  dsimp only
  split
  · exact .pure trace_appends _
  · split
    · exact .fail trace_appends _
    · exact appends_withReader _ (appends_map (appends_compileFilters _))

theorem appends_ownFilters (policy : Policy) (q : Query) (table : String) :
    Moves Appends (ownFilters policy q table) := by
  unfold ownFilters
  split
  · exact .pure trace_appends _
  · exact appends_compileTableFilters policy table

theorem appends_compileGroupBy (groups : List Json) : Moves Appends (compileGroupBy groups) := by
  have hgroup (e : Json) : Moves Appends (compileGroup e) := by
    unfold compileGroup
    split
    · exact appends_map (appends_compileExpr _)
    · exact appends_map (appends_compileExpr _)
  exact .within trace_appends _ _ (appends_map (appends_mapM _ hgroup))

theorem appends_clause {keyword : String} {expressions : List Json}
    {compile : List Json → Compile Template} (h : Moves Appends (compile expressions)) :
    Moves Appends (clause keyword expressions compile) := by
  unfold clause
  split
  · exact .pure trace_appends _
  · exact appends_map h

/-- The filters of a join see no joins, and the joins of the statement come back behind them. -/
theorem appends_withJoined {m : Compile α} (j : Join) (h : Moves Appends m) :
    Moves Appends (withJoined j m) := by
  intro s l hl
  have hinner := h (joinedScope s j) { l with joins := .empty } ⟨Joins.indexed_empty, hl.numbered⟩
  rw [outcome_withJoined]
  split <;> rename_i hm
  · rw [hm] at hinner
    exact ⟨⟨hl.indexed, hinner.1.numbered⟩, hinner.2⟩
  · rw [hm] at hinner
    exact ⟨⟨hl.indexed, hinner.1.numbered⟩, hinner.2⟩

theorem appends_compileJoin (policy : Policy) (q : Query) (j : Join) :
    Moves Appends (compileJoin policy q j) := by
  have hdependency : Moves Appends (modify fun l => if l.dependencies.contains j.table then l
      else { l with dependencies := l.dependencies ++ [j.table] }) := by
    intro s l hl
    show Ledger.Sound (ite _ _ _) ∧ l.sites <+: Ledger.sites (ite _ _ _)
    split
    · exact ⟨hl, List.prefix_refl _⟩
    · exact ⟨⟨hl.indexed, hl.numbered⟩, List.prefix_refl _⟩
  unfold compileJoin
  simp only [Compile.ite_bind]
  refine .bind trace_appends ?_ fun filters => .bind trace_appends hdependency fun _ =>
    appends_map (.read trace_appends)
  split
  · exact .pure trace_appends _
  · exact appends_withJoined j (appends_compileTableFilters policy j.table)

end Clauses

/-! ## 3. Sites in the order in which they are pushed -/

/-- Sites are numbered as they are pushed. Apart from repetitions they stand in that order, and none
    is missing. -/
def Ledger.InPushOrder (l : Ledger) : Prop :=
  (l.sites.map Site.id).eraseDups = List.range' 1 l.siteCount

theorem Ledger.InPushOrder.mem_iff {l : Ledger} (h : l.InPushOrder) {id : Nat} :
    id ∈ l.sites.map Site.id ↔ 1 ≤ id ∧ id < 1 + l.siteCount := by
  rw [← List.mem_eraseDups, h, List.mem_range'_1]

def StaysInPushOrder (_ : Scope) (l l' : Ledger) : Prop := l.InPushOrder → l'.InPushOrder

theorem trace_staysInPushOrder : Trace StaysInPushOrder where
  refl _ _ h := h
  trans _ _ _ _ h h' hl := h' (h hl)
  frames _ _ _ _ h := h

/-- The next number is behind all others. -/
theorem inPushOrder_pushSite (name : String) : Moves StaysInPushOrder (Compile.pushSite name) := by
  intro s l hl
  have hnew : l.siteCount + 1 ∉ l.sites.map Site.id := fun hmem => by
    have := (hl.mem_iff.mp hmem).2
    omega
  have hfresh : [l.siteCount + 1].removeAll (l.sites.map Site.id) = [l.siteCount + 1] := by
    refine List.filter_eq_self.mpr fun id hid => ?_
    rw [List.mem_singleton.mp hid]
    simpa using hnew
  show ((l.sites ++ [(⟨l.siteCount + 1, name, none⟩ : Site)]).map Site.id).eraseDups =
    List.range' 1 (l.siteCount + 1)
  rw [List.map_append, List.eraseDups_append, hl, List.range'_concat, List.map_singleton, hfresh,
    Nat.one_mul, Nat.add_comm 1]
  rfl

theorem inPushOrder_inferParam (ref : ParamRef) (type : ValueType) :
    Moves StaysInPushOrder (Compile.inferParam ref type) := by
  have hnoted (sites : List Site) : (noted ref type sites).map Site.id = sites.map Site.id := by
    rw [noted, List.map_map]
    refine List.map_congr_left fun site _ => ?_
    show Site.id (ite _ _ _) = site.id
    split <;> rfl
  intro s l hl
  rw [outcome_inferParam]
  split
  · split
    · exact (congrArg List.eraseDups (hnoted l.sites)).trans hl
    · exact hl
  · exact (congrArg List.eraseDups (hnoted l.sites)).trans hl

theorem inPushOrder_repeatSitesFrom (mark : Nat) :
    Moves StaysInPushOrder (Compile.repeatSitesFrom mark) := by
  intro s l hl
  have hold : ((l.sites.drop mark).map Site.id).removeAll (l.sites.map Site.id) = [] := by
    refine List.filter_eq_nil_iff.mpr fun id hid => ?_
    have hmem : id ∈ l.sites.map Site.id := List.map_subset _ (List.drop_subset _ _) hid
    simpa using hmem
  show ((l.sites ++ l.sites.drop mark).map Site.id).eraseDups = List.range' 1 l.siteCount
  rw [List.map_append, List.eraseDups_append, hold, hl]
  exact List.append_nil _

theorem steps_staysInPushOrder : Steps Part.AnyName (Compile.Follows StaysInPushOrder) where
  toClosed := trace_staysInPushOrder.closed
  withField _ h s l := h { s with field := some _ } l
  compileField name _ := holds_compileField trace_staysInPushOrder.closed
    (moves_joins fun _ _ _ _ h => h) name
  pushSite := inPushOrder_pushSite
  inferParam := inPushOrder_inferParam
  repeatSitesFrom := inPushOrder_repeatSitesFrom

theorem clauseSteps_staysInPushOrder (orders : List Json) :
    ClauseSteps orders (Compile.Follows StaysInPushOrder) (Compile.Follows StaysInPushOrder) :=
  clauseSteps_of_follows trace_staysInPushOrder steps_staysInPushOrder (fun _ _ _ _ h => h)
    (fun _ _ _ _ h => h) fun _ _ _ _ h => h

theorem JoinStep.inPushOrder {policy : Policy} {q : Query} {s : Scope} {l l' inner : Ledger}
    {j : Join} {t : Template} {filter : Option Template}
    (h : JoinStep policy q s l j t l' filter inner) (hl : l.InPushOrder) : l'.InPushOrder := by
  have hinner : inner.InPushOrder := by
    rcases h.filters with ⟨-, -, rfl⟩ | ⟨-, hfilters⟩
    · exact hl
    · exact Moves.yields
        (holds_compileTableFilters (clauseSteps_staysInPushOrder []) policy j.table) hfilters hl
  rw [h.ledger]
  exact hinner

theorem JoinSteps.inPushOrder {policy : Policy} {q : Query} {s : Scope} {l l' : Ledger}
    {entries : List (String × Join)} {ts : List Template}
    (h : JoinSteps policy q s l entries ts l') (hl : l.InPushOrder) : l'.InPushOrder := by
  induction h with
  | nil => exact hl
  | cons h _ ih => exact ih (h.inPushOrder hl)

/-- Until the sites of the joins are moved the sites stand as they were pushed. -/
theorem Phases.Valid.inPushOrder {policy : Policy} {q : Query} {s : Scope} {table : String}
    {p : Phases policy q s} (h : p.Valid (.root table)) : p.joined.InPushOrder := by
  have hordered : p.ordered.InPushOrder :=
    h.moves trace_staysInPushOrder (clauseSteps_staysInPushOrder q.orders) rfl
  obtain ⟨-, ts, -, hjoins⟩ := yields_compileJoins h.joins
  exact (joinSteps_of_mapM hjoins).inPushOrder hordered

/-! ## 4. Blocks -/

variable {policy : Policy} {q : Query} {schema : Schema} {s : Scope}

/-- The sites that the phases of a statement add. -/
structure SiteBlocks where
  select : List Site
  own : List Site
  extra : List Site
  groups : List Site
  orders : List Site
  /-- One block for each join. -/
  joins : List (List Site)

/-- The joins are compiled one after the other, and each adds a block of sites. -/
inductive JoinBlocks (policy : Policy) (q : Query) (s : Scope) :
    Ledger → List (String × Join) → List (List Site) → Ledger → Prop
  | nil {l : Ledger} : JoinBlocks policy q s l [] [] l
  | cons {l l₁ l' : Ledger} {entry : String × Join} {entries : List (String × Join)} {t : Template}
      {block : List Site} {blocks : List (List Site)}
      (h : (compileJoin policy q entry.2).Yields s l t l₁) (sites : l₁.sites = l.sites ++ block)
      (rest : JoinBlocks policy q s l₁ entries blocks l') :
      JoinBlocks policy q s l (entry :: entries) (block :: blocks) l'

/-- The phases of a statement add these blocks. -/
structure SiteBlocks.Added (b : SiteBlocks) (p : Phases policy q s) (l : Ledger) : Prop where
  select : p.selected.sites = l.sites ++ b.select
  own : p.filtered.sites = p.selected.sites ++ b.own
  extra : p.restricted.sites = p.filtered.sites ++ b.extra
  groups : p.grouped.sites = p.restricted.sites ++ b.groups
  orders : p.ordered.sites = p.grouped.sites ++ b.orders
  joins : JoinBlocks policy q s p.ordered p.ordered.joins.entries b.joins p.joined

/-- The sites of the blocks in the order in which the statement has its clauses. -/
def SiteBlocks.inOrder (b : SiteBlocks) : List Site :=
  b.select ++ b.joins.flatten ++ b.own ++ b.extra ++ b.groups ++ b.orders

theorem block_of_appends {α : Type} {m : Compile α} {l l' : Ledger} {a : α}
    (hm : Moves Appends m) (hl : l.Sound) (h : m.Yields s l a l') :
    l'.Sound ∧ ∃ block, l'.sites = l.sites ++ block := by
  obtain ⟨hl', block, hblock⟩ := hm.yields h hl
  exact ⟨hl', block, hblock.symm⟩

theorem joinBlocks_of_mapM {l l' : Ledger} {entries : List (String × Join)} {ts : List Template}
    (hl : l.Sound)
    (h : (entries.mapM fun entry => compileJoin policy q entry.2).Yields s l ts l') :
    ∃ blocks, JoinBlocks policy q s l entries blocks l' := by
  induction entries generalizing l ts with
  | nil =>
    obtain ⟨-, rfl⟩ := Compile.yields_pure.mp h
    exact ⟨[], .nil⟩
  | cons entry entries ih =>
    simp only [List.mapM_cons, Compile.yields_bind, Compile.yields_pure] at h
    obtain ⟨t, l₁, hjoin, us, _, hrest, -, rfl⟩ := h
    obtain ⟨hl₁, block, hblock⟩ := block_of_appends (appends_compileJoin policy q entry.2) hl hjoin
    obtain ⟨blocks, hblocks⟩ := ih hl₁ hrest
    exact ⟨block :: blocks, .cons hjoin hblock hblocks⟩

theorem JoinBlocks.sites {l l' : Ledger} {entries : List (String × Join)}
    {blocks : List (List Site)} (h : JoinBlocks policy q s l entries blocks l') :
    l'.sites = l.sites ++ blocks.flatten := by
  induction h with
  | nil => exact (List.append_nil _).symm
  | cons _ hblock _ ih => rw [ih, hblock, List.flatten_cons, List.append_assoc]

/-- Each phase adds a block. -/
theorem blocks_of_phases {l : Ledger} {p : Phases policy q s} (hl : l.Sound) (hp : p.Valid l) :
    ∃ b : SiteBlocks, b.Added p l := by
  have hgroupBy : Moves Appends (clause "GROUP BY" q.groups compileGroupBy) :=
    appends_clause (appends_compileGroupBy q.groups)
  have horderBy : Moves Appends (clause "ORDER BY" q.orders compileOrderBy) :=
    appends_clause (appends_of_call (.orderBy q.orders) rfl)
  obtain ⟨-, ts, -, hjoins⟩ := yields_compileJoins hp.joins
  obtain ⟨hl, select, hselect⟩ := block_of_appends (appends_compileSelect q) hl hp.select
  obtain ⟨hl, own, hown⟩ := block_of_appends (appends_compileFilters q.filters) hl hp.own
  obtain ⟨hl, extra, hextra⟩ := block_of_appends (appends_ownFilters policy q q.table) hl hp.extra
  obtain ⟨hl, groups, hgroups⟩ := block_of_appends hgroupBy hl hp.groupBy
  obtain ⟨hl, orders, horders⟩ := block_of_appends horderBy hl hp.orderBy
  obtain ⟨joins, hblocks⟩ := joinBlocks_of_mapM hl hjoins
  exact ⟨⟨select, own, extra, groups, orders, joins⟩, hselect, hown, hextra, hgroups, horders,
    hblocks⟩

/-- The joins are moved behind the select list, and the blocks are in the order of the clauses. -/
theorem SiteBlocks.Added.sites_ledger {table : String} {b : SiteBlocks} {p : Phases policy q s}
    (h : b.Added p (.root table)) : p.ledger.sites = b.inOrder := by
  have hselected : p.selected.sites = b.select := h.select
  have hordered : p.ordered.sites =
      b.select ++ (b.own ++ b.extra ++ b.groups ++ b.orders) := by
    rw [h.orders, h.groups, h.extra, h.own, hselected]
    simp only [List.append_assoc]
  have hjoined : p.joined.sites = p.ordered.sites ++ b.joins.flatten := h.joins.sites
  -- the marks that were taken in the phases are the lengths of the blocks in front
  show Site.move p.joined.sites p.ordered.sites.length p.selected.sites.length = b.inOrder
  rw [hjoined, hordered, hselected, Site.move_append]
  simp only [SiteBlocks.inOrder, List.append_assoc]

/-- The sites of a statement are those of its select list, of its joins one by one, of its filters
    and the policy's, of its groups and of its orders. They are the sites that the phases added, in
    the order in which they were pushed until those of the joins were moved. That is a permutation,
    as moving sites ever is: two blocks are exchanged, and both keep their order. -/
theorem sites_of_compile {c : CompiledQuery} (h : q.compile schema policy = .ok c) :
    (∃ (p : Phases policy c.query (rootScope policy schema c.query)) (b : SiteBlocks),
      p.Valid (.root c.query.table) ∧ c.ledger = p.ledger ∧ b.Added p (.root c.query.table) ∧
        p.joined.InPushOrder ∧ c.sites = b.inOrder ∧ c.sites.Perm p.joined.sites) ∧
      ∀ sites source target, (Site.move sites source target).Perm sites ∧
        Site.Exchanges source target sites (Site.move sites source target) := by
  refine ⟨?_, fun sites source target =>
    ⟨Site.move_perm sites source target, Site.exchanges_move sites source target⟩⟩
  obtain ⟨-, -, p, hp, -, -, -, hledger⟩ := phases_of_compile h
  obtain ⟨b, hb⟩ := blocks_of_phases (Ledger.sound_root _) hp
  have hsites : c.sites = p.ledger.sites := congrArg Ledger.sites hledger
  exact ⟨p, b, hp, hledger, hb, hp.inPushOrder, hsites.trans hb.sites_ledger,
    hsites ▸ Site.move_perm p.joined.sites p.ordered.sites.length p.selected.sites.length⟩

section Payees

open CompiledQuery (payeesOf compileSelect_payeesOf nested named compileTableFilters_named)

/-- The payee of one transaction. -/
def payeeOfOne : Query :=
  { payeesOf "transactions" with filters := [.object [("id", .string ":one")]] }

theorem compileSelect_payeeOfOne :
    compileSelect payeeOfOne = compileSelect (payeesOf "transactions") := rfl

/-- The filter, as far as it can be computed. -/
theorem compileFilters_payeeOfOne : compileFilters payeeOfOne.filters =
    Compile.within .filter [.array payeeOfOne.filters] do
      let t ← Compile.within .op [.string "id", .object [("$eq", .string ":one")]] do
        let mark ← Compile.mark
        let left ← Compile.within .expr [.string "$id"] (compileText "$id")
        let right ← Compile.within .expr [.string ":one"] (compileText ":one")
        equality mark left right
      return Condition.all [t] := by
  unfold compileFilters compileAnd compileConditions payeeOfOne
  rw [conditionsWith_equal window ":one" (by decide) (by decide)]
  simp only [bind_assoc, pure_bind]
  rfl

/-- The parameter of the join is compiled behind that of the filter and bound in front of it. Both
    are bound twice. -/
theorem sites_of_payeeOfOne : ∃ c, payeeOfOne.compile nested (named ":owner") = .ok c ∧
    c.sites = [⟨2, "owner", some .string⟩, ⟨2, "owner", some .string⟩, ⟨1, "one", some .id⟩,
      ⟨1, "one", some .id⟩] ∧
    ∃ (p : Phases (named ":owner") c.query (rootScope (named ":owner") nested c.query))
      (b : SiteBlocks), p.Valid (.root c.query.table) ∧ c.ledger = p.ledger ∧
        b.Added p (.root c.query.table) ∧ p.joined.InPushOrder ∧ c.sites = b.inOrder ∧
        c.sites.Perm p.joined.sites := by
  obtain ⟨c, hc, hsites⟩ : ∃ c, payeeOfOne.compile nested (named ":owner") = .ok c ∧
      decide (c.sites = [⟨2, "owner", some .string⟩, ⟨2, "owner", some .string⟩,
        ⟨1, "one", some .id⟩, ⟨1, "one", some .id⟩]) = true := by
    refine compile_of_piecesPass (by cbv) ?_
    unfold piecesPass compilePieces
    simp only [compileJoins, compileJoin, compileTableFilters_named]
    rw [show (named ":owner").customize payeeOfOne = payeeOfOne from rfl, compileSelect_payeeOfOne,
      compileSelect_payeesOf, compileFilters_payeeOfOne]
    decide +kernel
  exact ⟨c, hc, of_decide_eq_true hsites, (sites_of_compile hc).1⟩

end Payees

end QuerySheet.Sql
