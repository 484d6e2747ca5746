import QuerySheet.Proofs.Sheet.Links
import QuerySheet.Proofs.Sheet.Batch

/-!
# Edits, and the batches that they start

* `Bound`: a cell with a binding. `Waits`: a cell that is dirty or in the queue;
* `Edits`: a change after which every cell waits that got a binding or another value;
* `Moves`: an edit, and maybe the batch that it starts. All operations move that take no cell and no
  binding away and give no values without computing (`Operation.moves_settled`);
* `Tracked`: what holds of a sheet after such operations.
-/

namespace QuerySheet.Sheet

variable {s s' t u : Sheet} {name a : String} {names : List String}

/-! ## 1. Edits -/

/-- The cell of a name got its value from a write or from a computation, or is going to. -/
def Bound (s : Sheet) (name : String) : Prop := ∃ c, s.cell? name = some c ∧ c.binding ≠ .unbound

def Waits (s : Sheet) (name : String) : Prop := name ∈ s.dirty ∨ name ∈ s.queue

theorem batches_setStatus {status : CacheStatus} : (s.setStatus status).batches = s.batches := by
  unfold setStatus
  split <;> rfl

theorem batches_markClean : s.markClean.batches = s.batches := by
  unfold markClean
  split
  · rfl
  · exact batches_setStatus

/-- A change after which every cell waits that got a binding or another value, if it is none of some
    names. Nothing is handed over. -/
structure Edits (names : List String) (s t : Sheet) : Prop where
  batches : t.batches = s.batches
  suspended : ∀ p, t.suspended = some p → s.suspended = some p
  waits : ∀ a, s.Waits a → t.Waits a
  bound : ∀ a, s.Bound a → t.Bound a
  binds : ∀ a, t.Bound a → s.Bound a ∨ a ∈ names ∨ t.Waits a
  value : ∀ a, t.value a = s.value a ∨ t.Bound a ∧ (a ∈ names ∨ t.Waits a)

namespace Edits

theorem refl (names : List String) (s : Sheet) : Edits names s s :=
  ⟨rfl, fun _ h => h, fun _ h => h, fun _ h => h, fun _ h => .inl h, fun _ => .inl rfl⟩

theorem trans (h : Edits names s t) (h' : Edits names t u) : Edits names s u where
  batches := h'.batches.trans h.batches
  suspended p hp := h.suspended p (h'.suspended p hp)
  waits a ha := h'.waits a (h.waits a ha)
  bound a ha := h'.bound a (h.bound a ha)
  binds a ha := by
    rcases h'.binds a ha with ha | ha
    · rcases h.binds a ha with ha | ha
      · exact .inl ha
      · exact .inr (ha.imp_right (h'.waits a))
    · exact .inr ha
  value a := by
    rcases h'.value a with hv' | hv'
    · rcases h.value a with hv | ⟨hb, hw⟩
      · exact .inl (hv'.trans hv)
      · exact .inr ⟨h'.bound a hb, hw.imp_right (h'.waits a)⟩
    · exact .inr hv'

theorem mono (h : Edits [] s t) (names : List String) : Edits names s t where
  batches := h.batches
  suspended := h.suspended
  waits := h.waits
  bound := h.bound
  binds a ha := (h.binds a ha).imp_right fun hw => .inr (hw.resolve_left List.not_mem_nil)
  value a := (h.value a).imp_right fun hv => ⟨hv.1, .inr (hv.2.resolve_left List.not_mem_nil)⟩

/-- The names that were left out are dirty by now. -/
theorem mark (h : Edits names s t) (hdirty : ∀ a ∈ names, a ∈ t.dirty) : Edits [] s t where
  batches := h.batches
  suspended := h.suspended
  waits := h.waits
  bound := h.bound
  binds a ha := (h.binds a ha).imp_right fun hw => .inr (hw.elim (fun hm => .inl (hdirty a hm)) id)
  value a := (h.value a).imp_right fun hv =>
    ⟨hv.1, .inr (hv.2.elim (fun hm => .inl (hdirty a hm)) id)⟩

/-- The cells stay as they are, and more may wait. -/
theorem of_cells (hcells : t.cells = s.cells) (hbatches : t.batches = s.batches)
    (hsusp : ∀ p, t.suspended = some p → s.suspended = some p)
    (hwaits : ∀ a, s.Waits a → t.Waits a) : Edits [] s t := by
  have hcell (a : String) : t.cell? a = s.cell? a := by rw [Sheet.cell?, hcells, Sheet.cell?]
  refine ⟨hbatches, hsusp, hwaits, fun a ha => ?_, fun a ha => .inl ?_, fun a => .inl ?_⟩
  · rwa [Bound, hcell]
  · rwa [Bound, ← hcell]
  · rw [Sheet.value, hcell, Sheet.value]

theorem waits_of_schedule (h : t.schedule = s.schedule) (ha : s.Waits a) : t.Waits a := by
  rw [Waits, show t.dirty = s.dirty from congrArg Schedule.dirty h,
    show t.queue = s.queue from congrArg Schedule.queue h]
  exact ha

theorem touch (s : Sheet) (name : String) : Edits [] s (s.touch name) where
  batches := by unfold Sheet.touch; split <;> rfl
  suspended p hp := (congrArg Schedule.suspended schedule_touch).symm.trans hp
  waits a ha := waits_of_schedule schedule_touch ha
  bound a ha := by
    obtain ⟨c, hc, hb⟩ := ha
    exact ⟨c, cell?_touch_of_some hc, hb⟩
  binds a ha := by
    obtain ⟨c, hc, hb⟩ := ha
    rcases cell?_of_touch hc with hc | ⟨-, rfl⟩
    · exact .inl ⟨c, hc, hb⟩
    · exact absurd rfl hb
  value a := .inl value_touch

theorem foldl_touch (names : List String) (s : Sheet) : Edits [] s (names.foldl Sheet.touch s) := by
  induction names generalizing s with
  | nil => exact refl [] s
  | cons n names ih => exact (touch s n).trans (ih (s.touch n))

theorem markClean (s : Sheet) : Edits [] s s.markClean :=
  .of_cells (SameCells.markClean s).2 batches_markClean
    (fun _ hp => (congrArg Schedule.suspended schedule_markClean).symm.trans hp)
    fun _ ha => waits_of_schedule schedule_markClean ha

/-- A cell that has a binding after a change of it. -/
theorem update {f : Cell → Cell}
    (hf : ∀ c, s.cell? name = some c → (f c).binding ≠ .unbound) :
    Edits [name] s (s.update name f) := by
  have hself {c : Cell} (hc : s.cell? name = some c) : (s.update name f).Bound name :=
    ⟨f c, by rw [cell?_update_self, hc, Option.map_some], hf c hc⟩
  refine ⟨rfl, fun p hp => hp, fun a ha => ha, fun a ha => ?_, fun a ha => ?_, fun a => ?_⟩
  · obtain ⟨c, hc, hb⟩ := ha
    by_cases e : a = name
    · subst e
      exact hself hc
    · exact ⟨c, (cell?_update_of_ne e).trans hc, hb⟩
  · by_cases e : a = name
    · exact .inr (.inl (List.mem_singleton.mpr e))
    · obtain ⟨c, hc, hb⟩ := ha
      exact .inl ⟨c, (cell?_update_of_ne e).symm.trans hc, hb⟩
  · by_cases e : a = name
    · subst e
      cases hc : s.cell? a with
      | none =>
        exact .inl (by rw [Sheet.value, cell?_update_self, Sheet.value, hc, Option.map_none])
      | some c => exact .inr ⟨hself hc, .inl List.mem_cons_self⟩
    · exact .inl (by rw [Sheet.value, cell?_update_of_ne e, Sheet.value])

/-- A change of one cell that leaves its value, and does not bind or unbind it. -/
theorem update_keeping {f : Cell → Cell} (hvalue : ∀ c, (f c).value = c.value)
    (hf : ∀ c, s.cell? name = some c → ((f c).binding = .unbound ↔ c.binding = .unbound)) :
    Edits [] s (s.update name f) := by
  have hbound (a : String) : (s.update name f).Bound a ↔ s.Bound a := by
    by_cases e : a = name
    · subst e
      rw [Bound, cell?_update_self, Bound]
      cases hc : s.cell? a with
      | none => simp
      | some c => simp [hf c hc]
    · rw [Bound, cell?_update_of_ne e, Bound]
  exact ⟨rfl, fun p hp => hp, fun a ha => ha, fun a => (hbound a).mpr,
    fun a ha => .inl ((hbound a).mp ha), fun a => .inl (value_update hvalue)⟩

/-- Names of the queue are computed. -/
theorem of_ran (h : Ran names s t) (hqueue : ∀ a ∈ names, a ∈ s.queue) : Edits [] s t := by
  have hwaits (a : String) : s.Waits a → t.Waits a := waits_of_schedule h.schedule
  have hcell (a : String) : t.cell? a = s.cell? a ∨ s.Bound a ∧ t.Bound a ∧ t.Waits a := by
    cases hc : s.cell? a with
    | none => exact .inl (h.missing a hc)
    | some c =>
      by_cases ha : a ∉ names ∨ ¬ c.binding.Computes
      · exact .inl (h.kept a c hc ha)
      · obtain ⟨hmem, hb⟩ := not_or.mp ha
        obtain ⟨hmem, hb⟩ := And.intro (Classical.not_not.mp hmem) (Classical.not_not.mp hb)
        have hbound {c : Cell} (hb : c.binding.Computes) : c.binding ≠ .unbound := by
          intro e
          rw [e] at hb
          exact hb
        obtain ⟨c', hc', hb'⟩ := h.computed a c hc hb
        exact .inr ⟨⟨c, hc, hbound hb⟩, ⟨c', hc', hbound hb'⟩, hwaits a (.inr (hqueue a hmem))⟩
  refine ⟨h.batches, fun p hp => ?_, hwaits, fun a ha => ?_, fun a ha => ?_, fun a => ?_⟩
  · exact (congrArg Schedule.suspended h.schedule).symm.trans hp
  · rcases hcell a with hc | ⟨-, hb, -⟩
    · rwa [Bound, hc]
    · exact hb
  · rcases hcell a with hc | ⟨hb, -, -⟩
    · exact .inl (by rwa [Bound, ← hc])
    · exact .inl hb
  · rcases hcell a with hc | ⟨-, hb, hw⟩
    · exact .inl (by rw [Sheet.value, hc, Sheet.value])
    · exact .inr ⟨hb, .inr hw⟩

end Edits

/-! ## 2. Moves -/

/-- What holds of a sheet that no operation took a binding or a cell from. -/
structure Tracked (s : Sheet) : Prop where
  regular : s.schedule.Regular
  tied : s.Tied
  blank : ∀ a, ¬ s.Bound a → s.value a = .null
  pending : ∀ p, s.suspended = some p → s.Bound p.name

theorem tracked_new (schema : Schema) (policy : Policy) (executor : Option Executor) :
    (new schema policy executor).Tracked where
  regular := regular_new schema policy executor
  tied := tied_new schema policy executor
  blank a _ := by simp [value, cell?, Sheet.new]
  pending p hp := by cases hp

/-- An edit, and maybe the batch that it starts. -/
def Moves (s s' : Sheet) : Prop :=
  Edits [] s s' ∨ ∃ t waiting, Edits [] s t ∧ Ends t waiting s'

theorem Ends.binds_iff {waiting : Bool} (h : Ends t waiting s') : s'.Bound a ↔ t.Bound a := by
  rw [Bound, h.sameCells.cell?, Bound]

namespace Moves

theorem after (h : Edits [] s t) (h' : Moves t s') : Moves s s' := by
  rcases h' with h' | ⟨u, waiting, h', hends⟩
  · exact .inl (h.trans h')
  · exact .inr ⟨u, waiting, h.trans h', hends⟩

theorem enqueue (h : Edits [] s { t with queue := t.queue ++ names }) :
    Moves s (t.enqueue names) := by
  unfold Sheet.enqueue
  split
  · rename_i hempty
    rw [List.isEmpty_iff.mp hempty, List.append_nil] at h
    exact .inl h
  · have hstatus : Edits [] s { t.setStatus .dirty with
        queue := (t.setStatus .dirty).queue ++ names } := by
      refine h.trans (.of_cells (SameCells.setStatus t .dirty).2 batches_setStatus (fun p hp => ?_)
        fun a ha => ?_)
      · exact (congrArg Schedule.suspended schedule_setStatus).symm.trans hp
      · have hs : (t.setStatus .dirty).schedule = t.schedule := schedule_setStatus
        rw [Waits, show (t.setStatus .dirty).dirty = t.dirty from congrArg Schedule.dirty hs,
          show (t.setStatus .dirty).queue = t.queue from congrArg Schedule.queue hs]
        exact ha
    generalize t.setStatus .dirty = t at hstatus
    dsimp only
    split
    · exact .inl hstatus
    · obtain ⟨u, hran, hends⟩ := runQueue_ends false
        (rfl : { t with queue := t.queue ++ names, running := true }.queue.drop 0 = _)
      have hrun : Edits [] { t with queue := t.queue ++ names }
          { t with queue := t.queue ++ names, running := true } :=
        .of_cells rfl rfl (fun _ hp => hp) fun _ ha => ha
      exact .inr ⟨u, false, (hstatus.trans hrun).trans (.of_ran hran fun _ ha => ha), hends⟩

/-- All dirty names go to the queue when the outermost transaction closes. -/
theorem endTransaction (h : Edits [] s t) (hacyclic : t.graph.Acyclic) :
    Moves s t.endTransaction := by
  unfold Sheet.endTransaction
  dsimp only
  split
  · refine enqueue (h.trans (.of_cells rfl rfl (fun _ hp => hp) fun a ha => .inr ?_))
    rcases ha with ha | ha
    · exact List.mem_append_right _ ((Graph.mem_topologicalSort hacyclic).mpr ⟨a, ha, .refl⟩)
    · exact List.mem_append_left _ ha
  · exact .inl (h.trans (.of_cells rfl rfl (fun _ hp => hp) fun _ ha => ha))

/-- The names that an edit left out are marked, in a transaction of their own. -/
theorem invalidate (h : Edits names s t) (ht : (t.invalidate names).Tied) :
    Moves s (t.invalidate names) := by
  have hacyclic : t.graph.Acyclic :=
    ht.acyclic.mono fun a b hab => ((SameReads.invalidate t names).edge a b).mpr hab
  unfold Sheet.invalidate
  rw [foldl_markDirty]
  have hmarked : Edits [] t { t.startTransaction with dirty := t.dirty ++ names } :=
    .of_cells rfl rfl (fun _ hp => hp) fun a ha => ha.imp_left (List.mem_append_left _)
  exact endTransaction ((h.trans (hmarked.mono names)).mark fun a ha =>
    List.mem_append_right _ ha) hacyclic

theorem of_edits (h : Edits [] s s') : Moves s s' := .inl h

theorem blank (h : Moves s s') (hs : ∀ a, ¬ s.Bound a → s.value a = .null) (hb : ¬ s'.Bound a) :
    s'.value a = .null := by
  have hedits {t : Sheet} (h : Edits [] s t) (hb : ¬ t.Bound a) : t.value a = .null := by
    rw [(h.value a).resolve_right fun hv => hb hv.1]
    exact hs a fun hbs => hb (h.bound a hbs)
  rcases h with h | ⟨t, waiting, h, hends⟩
  · exact hedits h hb
  · rw [hends.sameCells.value]
    exact hedits h fun hbt => hb (hends.binds_iff.mpr hbt)

theorem pending (h : Moves s s') (hs : ∀ p, s.suspended = some p → s.Bound p.name) {p : Suspended}
    (hp : s'.suspended = some p) : s'.Bound p.name := by
  have hedits {t : Sheet} (h : Edits [] s t) (hp : t.suspended = some p) : t.Bound p.name :=
    h.bound _ (hs p (h.suspended p hp))
  rcases h with h | ⟨t, waiting, h, hends⟩
  · exact hedits h hp
  · rw [hends.binds_iff]
    cases hends with
    | finished =>
      exact hedits h ((congrArg Schedule.suspended (finish_frame t).2).symm.trans hp)
    | suspended p' hp' c hc hb =>
      cases hp
      refine ⟨c, hc, fun e => ?_⟩
      rw [e] at hb
      exact hb
    | failed e => exact hedits h hp

end Moves

/-! ## 3. Operations -/

theorem moves_set (h : s.Tracked) (name : String) (v : Json) : Moves s (s.set name v) := by
  have htied := (keeps_set s name v h.tied).1
  rw [set_eq] at htied ⊢
  refine .invalidate (((Edits.touch s name).mono [name]).trans (.update fun c _ => ?_)) htied
  unfold written
  cases c.binding <;> simp

theorem moves_createStatic (h : s.Tracked) (sheet name : String) (v : Json) :
    Moves s (s.createStatic sheet name v) := by
  unfold createStatic
  dsimp only
  split
  · exact .of_edits (.refl [] s)
  · exact moves_set h _ v

theorem Edits.graph (g : Graph) : Edits [] s { s with graph := g } :=
  .of_cells rfl rfl (fun _ hp => hp) fun _ ha => ha

theorem Edits.readied (s : Sheet) (name : String) (deps : List String) :
    Edits [] s (s.readied name deps) :=
  (Edits.foldl_touch deps s).trans (.touch _ name)

/-- A cell that is bound without being computed has a value, so it was bound already. -/
theorem Binds.moves {deps : List String} {d : Definition} {r : Sheet × Except CellError Unit}
    (hcall : s.Binds name deps d r) (h : s.Tracked) : Moves s r.1 := by
  have htied := (hcall.keeps h.tied).1
  cases hcall with
  | skipped => exact .of_edits (.refl [] s)
  | cyclic => exact .of_edits (.readied s name deps)
  | refused => exact .of_edits ((Edits.readied s name deps).trans (.graph _))
  | @started g =>
    have hbind : Edits [name] s
        ({ s.readied name deps with graph := g }.update name (computing d deps)) :=
      (((Edits.readied s name deps).trans (.graph g)).mono [name]).trans
        (.update fun _ _ hb => by cases hb)
    refine Moves.invalidate (hbind.trans (.update fun c hc => ?_)) htied
    rw [cell?_update_self] at hc
    obtain ⟨c', -, rfl⟩ := Option.map_eq_some_iff.mp hc
    exact fun hb => by cases hb
  | @kept g _ _ hvalue =>
    refine .of_edits (((Edits.readied s name deps).trans (.graph g)).trans
      (.update_keeping (fun _ => rfl) fun c hc => ⟨fun hb => (by cases hb), fun hb => ?_⟩))
    refine absurd (h.blank name fun hbound => ?_) hvalue
    obtain ⟨c', hc', hb'⟩ := (Edits.readied s name deps).bound name hbound
    cases hc'.symm.trans hc
    exact hb' hb

theorem BindsQuery.moves {handle : QueryHandle} {r : Sheet × Except CompileError Unit}
    (hcall : s.BindsQuery name handle r) (h : s.Tracked) : Moves s r.1 := by
  have htied := (hcall.keeps h.tied).1
  cases hcall with
  | unchanged => exact .invalidate (.refl [name] s) htied
  | failed => exact .of_edits (.refl [] s)
  | bound =>
    exact .invalidate ((((Edits.graph _).trans (.touch _ name)).mono [name]).trans
      (.update fun _ _ hb => by cases hb)) htied

theorem edits_addEach (deps : List String) (s : Sheet) :
    Edits [] s (s.addEach name deps).1 := by
  induction deps generalizing s with
  | nil => exact .refl [] s
  | cons d deps ih =>
    unfold addEach
    dsimp only
    refine (Edits.touch s d).trans ?_
    generalize s.touch d = t
    split
    · exact .graph _
    · refine ((Edits.graph _).trans
        (.update_keeping (f := reading d) (fun c => ?_) fun c _ => ?_)).trans (ih _)
      · unfold reading
        split <;> rfl
      · unfold reading
        split <;> rfl

theorem Adds.moves {deps : List String} {r : Sheet × Except CellError Unit}
    (hcall : s.Adds name deps r) (h : s.Tracked) : Moves s r.1 := by
  have htied := (hcall.keeps h.tied).1
  have hadd : Edits [] s (s.addEach name deps).1 := edits_addEach deps s
  cases hcall with
  | unknown => exact .of_edits (.refl [] s)
  | refused _ hrefused =>
    rw [hrefused] at hadd
    exact .of_edits hadd
  | added _ hadded =>
    rw [hadded] at hadd
    exact .invalidate (hadd.mono [name]) htied

theorem edits_removeEach (deps : List String) (s : Sheet) :
    Edits [] s (deps.foldl (removeReading name) s) := by
  induction deps generalizing s with
  | nil => exact .refl [] s
  | cons d deps ih =>
    have hremove : Edits [] s (s.removeReading name d) :=
      (Edits.graph _).trans (.update_keeping (fun _ => rfl) fun _ _ => Iff.rfl)
    exact hremove.trans (ih (s.removeReading name d))

theorem Removes.moves {deps : List String} {r : Sheet × Except CellError Unit}
    (hcall : s.Removes name deps r) (h : s.Tracked) : Moves s r.1 := by
  have htied := (hcall.keeps h.tied).1
  cases hcall with
  | unknown => exact .of_edits (.refl [] s)
  | removed => exact .invalidate ((edits_removeEach deps s).mono [name]) htied

theorem moves_endBarrier (s : Sheet) : Moves s s.endBarrier := by
  have hopen : Edits [] s { s with barrier := false } :=
    .of_cells rfl rfl (fun _ hp => hp) fun _ ha => ha
  unfold endBarrier
  dsimp only
  split
  · exact .of_edits (hopen.trans (.markClean _))
  · exact .of_edits hopen

/-- The outcome goes to a cell of the queue. -/
theorem moves_settle (h : s.Tracked) : Moves s s.settle := by
  obtain hp | ⟨p, hp⟩ := Option.eq_none_or_eq_some s.suspended
  · simp only [settle, hp]
    exact .of_edits (.refl [] s)
  · have hresume : Edits [] s { s with suspended := none } :=
      .of_cells rfl rfl (fun _ hp => by cases hp) fun _ ha => ha
    rcases settle_ends hp with ⟨v, t, -, hran, hends⟩ | ⟨e, -, heq⟩
    · obtain ⟨c, hc, hb⟩ := h.pending p hp
      have hqueue : p.name ∈ s.queue := List.mem_of_getElem? (h.regular.pending p hp)
      have hassign : Edits [p.name] { s with suspended := none }
          ({ s with suspended := none }.assign p.name v) := by
        refine .update fun c' hc' => ?_
        cases hc'.symm.trans hc
        exact hb
      have hassigned : Edits [] { s with suspended := none }
          ({ s with suspended := none }.assign p.name v) := by
        refine ⟨hassign.batches, hassign.suspended, hassign.waits, hassign.bound, fun a ha => ?_,
          fun a => ?_⟩
        · exact (hassign.binds a ha).imp_right fun hw => .inr (hw.elim
            (fun hm => .inr (List.mem_singleton.mp hm ▸ hqueue)) id)
        · exact (hassign.value a).imp_right fun hv => ⟨hv.1, .inr (hv.2.elim
            (fun hm => .inr (List.mem_singleton.mp hm ▸ hqueue)) id)⟩
      exact .inr ⟨t, true, (hresume.trans hassigned).trans
        (.of_ran hran fun a ha => List.mem_of_mem_drop ha), hends⟩
    · rw [heq]
      exact .inr ⟨_, true, hresume, .failed e⟩

namespace Operation

/-- A call that takes no cell and no binding away, and gives no value without computing. -/
def Writes : Operation → Prop
  | .unbind _ | .void _ | .delete _ | .clear _ | .prewarm _ _ | .load _ => False
  | _ => True

/-- The sheet that a call leaves before a wait collects the error. -/
def settled (s : Sheet) : Operation → Sheet
  | .wait => s.settle
  | op => op.apply s

theorem moves_settled (h : s.Tracked) {op : Operation} (hop : op.Writes) :
    Moves s (op.settled s) := by
  cases op with
  | set name v => exact moves_set h name v
  | createStatic sheet name v => exact moves_createStatic h sheet name v
  | createDynamic sheet name d => exact (binds_createDynamic s sheet name d).moves h
  | createQuery sheet name handle => exact (bindsQuery_createQuery s sheet name handle).moves h
  | addDependencies sheet name deps => exact (adds_addDependencies s sheet name deps).moves h
  | removeDependencies sheet name deps =>
    exact (removes_removeDependencies s sheet name deps).moves h
  | subscribe label | unsubscribe id | startBarrier =>
    exact .of_edits (.of_cells rfl rfl (fun _ hp => hp) fun _ ha => ha)
  | endBarrier => exact moves_endBarrier s
  | startTransaction => exact .of_edits (.of_cells rfl rfl (fun _ hp => hp) fun _ ha => ha)
  | endTransaction => exact .endTransaction (.refl [] s) h.tied.acyclic
  | tablesChanged tables =>
    exact .invalidate (.refl _ s) (((Keeps.refl s).invalidate _ h.tied).1)
  | wait => exact moves_settle h
  | unbind name | void name | delete name | clear sheet | prewarm name v | load cells =>
    exact hop.elim

/-- A wait differs in nothing but the error from the sheet before the error is collected. -/
theorem settled_cases (s : Sheet) (op : Operation) :
    ∃ e, op.apply s = { op.settled s with lastError := e } := by
  cases op with
  | wait =>
    simp only [apply, settled, Sheet.wait]
    cases he : s.settle.lastError with
    | some e => exact ⟨none, rfl⟩
    | none => exact ⟨s.settle.lastError, rfl⟩
  | _ => exact ⟨_, rfl⟩

theorem tracked_apply (h : s.Tracked) {op : Operation} (hop : op.Writes) :
    (op.apply s).Tracked := by
  have hmoves := moves_settled h hop
  have hregular := op.regular_apply h.regular
  have htied := op.tied_apply h.tied
  obtain ⟨e, heq⟩ := settled_cases s op
  rw [heq] at hregular htied ⊢
  exact ⟨hregular, htied, fun a ha => hmoves.blank h.blank ha,
    fun p hp => hmoves.pending h.pending hp⟩

end Operation

theorem tracked_run (h : s.Tracked) {ops : List Operation} (hops : ∀ op ∈ ops, op.Writes) :
    (s.run ops).Tracked := by
  induction ops generalizing s with
  | nil => exact h
  | cons op ops ih =>
    exact ih (op.tracked_apply h (hops op List.mem_cons_self)) fun op' hop' =>
      hops op' (List.mem_cons_of_mem _ hop')

end QuerySheet.Sheet
