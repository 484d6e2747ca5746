import Mathlib
import QuerySheet.Proofs.Sheet.Announcements
import QuerySheet.Proofs.Sheet.Saved

/-!
# Which error a wait collects

A batch that is aborted leaves its error on the sheet, and a wait takes it away. Nothing else does:
the batches that are finished after it leave it there.

* `Stops.lastError`: the error that a queue leaves when it stops;
* `Operation.Aborts`, `Operation.Finishes`: the two ways in which a call brings a batch to its end.
  A call leaves the error of the batch that it aborts (`Operation.Aborts.error?`), any other call
  leaves what was there (`Operation.error?_of_not_aborts`);
* `Uncollected`: the batch that was aborted last, if no wait has returned since;
* `lastError_iff_of_run`: it is the error of this batch that is left, and that the next wait gives.
  So the error is that of the latest batch, unless a batch was finished in between (`Outlived`).
-/

namespace QuerySheet

/-- The error that a queue stops with. -/
def Next.error? : Next → Option CellError
  | .fails e => some e
  | _ => none

namespace Sheet

variable {s s' t : Sheet} {names : List String} {next : Next}

/-! ## 1. A queue -/

theorem lastError_setStatus (s : Sheet) (status : CacheStatus) :
    (s.setStatus status).lastError = s.lastError := by
  unfold setStatus
  split <;> rfl

theorem lastError_markClean (s : Sheet) : s.markClean.lastError = s.lastError := by
  unfold markClean
  split
  · rfl
  · exact lastError_setStatus s _

/-- A batch that is finished leaves the error of one before. -/
theorem lastError_finish (s : Sheet) : s.finish.lastError = s.lastError := by
  rw [finish_eq]
  exact lastError_markClean _

theorem Stops.lastError (h : Stops t next s') : s'.lastError = next.error?.or t.lastError := by
  cases h with
  | finished => exact lastError_finish t
  | suspended p => rfl
  | failed e => rfl

theorem lastError_runQueue (waiting : Bool) (s : Sheet) (index : Nat) (rest : List String) :
    (runQueue waiting s index rest).lastError =
      (stop waiting (traceQueue waiting s index rest).1).error?.or s.lastError := by
  obtain ⟨t, ht, hstops⟩ := stops_queue waiting s index rest
  rw [hstops.lastError, ht.lastError]

theorem lastError_settle {p : Suspended} (hp : s.suspended = some p) :
    s.settle.lastError = (stop true (s.resumed p)).error?.or s.lastError := by
  obtain ⟨t, ht, hstops⟩ := stops_settle hp
  rw [hstops.lastError, ht.lastError]

theorem lastError_queued (t : Sheet) : t.queued.lastError = t.lastError :=
  lastError_setStatus t.closed .dirty

theorem lastError_of_bare (h : t.bare = s.bare) : t.lastError = s.lastError :=
  (congrArg Sheet.lastError h : t.bare.lastError = s.bare.lastError)

/-! ## 2. One call -/

namespace Operation

variable {op : Operation} {e e' : CellError}

/-- A call brings a batch to its end with an error. -/
def Aborts (s : Sheet) (op : Operation) (e : CellError) : Prop :=
  ∃ names, op.Carries s names (.fails e)

/-- A call brings a batch to its end without an error. -/
def Finishes (s : Sheet) (op : Operation) : Prop := ∃ names, op.Carries s names .goesOn

theorem settled_of_ne (h : op ≠ .wait) : op.settled s = op.apply s := by
  cases op with
  | wait => exact absurd rfl h
  | _ => rfl

theorem lastError_wait (s : Sheet) : (Operation.wait.apply s).lastError = none :=
  congrArg Sheet.lastError (wait_eq s)

theorem suspended_eq_none (hs : s.schedule.Regular) (hrun : s.running = false) :
    s.suspended = none := by
  have hrunning := hs.running
  simpa [schedule, hrun] using hrunning

/-- A call that goes through a batch leaves the error that stops it, or else the one that was there
    before. -/
theorem Carries.error? (h : op.Carries s names next) (hs : s.schedule.Regular) :
    op.error? s = next.error?.or s.lastError := by
  cases h with
  | @starts _ t hclose hbare hdepth hplanned hrun =>
    obtain ⟨hend, hvisits⟩ :=
      endTransaction_of_idle hdepth hplanned ((eq_of_bare hbare).2.2.2.1.trans hrun)
    have hlast : (op.apply s).lastError = (stop false t.visits).error?.or s.lastError := by
      rw [hclose.apply, hend, hvisits, lastError_runQueue]
      exact congrArg _ ((lastError_queued t).trans (lastError_of_bare hbare))
    by_cases hwait : op = .wait
    · -- a wait for nothing leaves no error, so none was there
      subst hwait
      rw [lastError_wait] at hlast
      obtain ⟨hnext, hnone⟩ := Option.or_eq_none_iff.mp hlast.symm
      rw [hnext, Option.none_or]
      exact congrArg Sheet.lastError (settle_of_none (suspended_eq_none hs hrun))
    · rw [Operation.error?, settled_of_ne hwait, hlast]
  | resumes hp => exact lastError_settle hp

/-- A call that goes through no batch leaves the error that was there. -/
theorem error?_of_idle (hno : ∀ names next, ¬ op.Carries s names next) :
    op.error? s = s.lastError := by
  by_cases hwait : op = .wait
  · subst hwait
    have hnone : s.suspended = none :=
      Option.eq_none_iff_forall_ne_some.mpr fun p hp => hno _ _ (.resumes hp)
    exact congrArg Sheet.lastError (settle_of_none hnone)
  · rw [Operation.error?, settled_of_ne hwait]
    cases op.touches s with
    | cells h ha => exact lastError_of_bare h
    | @closes _ t h hbare ha =>
      rw [h.apply, ← lastError_of_bare hbare]
      by_cases hclose : t.depth ≤ 1 ∧ t.planned ≠ []
      · cases hidle : s.running with
        | true =>
          have hrun : t.running = true := (eq_of_bare hbare).2.2.2.1.trans hidle
          rw [endTransaction_of_running hclose.1 hclose.2 hrun, lastError_queued]
        | false => exact absurd (Carries.starts h hbare hclose.1 hclose.2 hidle) (hno _ _)
      · exact lastError_of_bare (bare_endTransaction hclose)
    | hears h =>
      rw [h]
      rfl
    | endBarrier =>
      rcases endBarrier_eq s with h | ⟨h, -⟩
      · rw [h]
        rfl
      · rw [h, lastError_setStatus]
        rfl
    | wait => exact absurd rfl hwait

theorem Aborts.error? (h : op.Aborts s e) (hs : s.schedule.Regular) : op.error? s = some e := by
  obtain ⟨names, hcarries⟩ := h
  exact hcarries.error? hs

theorem error?_of_not_aborts (hs : s.schedule.Regular) (h : ∀ e, ¬ op.Aborts s e) :
    op.error? s = s.lastError := by
  by_cases hcarries : ∃ names next, op.Carries s names next
  · obtain ⟨names, next, hcarries⟩ := hcarries
    rw [hcarries.error? hs]
    cases next with
    | fails e => exact absurd ⟨names, hcarries⟩ (h e)
    | goesOn | waits => exact Option.none_or
  · exact error?_of_idle fun names next hc => hcarries ⟨names, next, hc⟩

end Operation

/-! ## 3. Runs -/

section Runs

variable {ops calls : List Operation} {op : Operation} {n i j : Nat} {e e' : CellError}

/-- A call of a run brings a batch to its end with an error. -/
def AbortsAt (s : Sheet) (calls : List Operation) (i : Nat) (e : CellError) : Prop :=
  ∃ op, calls[i]? = some op ∧ op.Aborts (s.run (calls.take i)) e

/-- A call of a run brings a batch to its end without an error. -/
def FinishesAt (s : Sheet) (calls : List Operation) (i : Nat) : Prop :=
  ∃ op, calls[i]? = some op ∧ op.Finishes (s.run (calls.take i))

/-- No wait has returned since a call, if the first `n` calls have returned. A wait that brings a
    batch to its end returns after it. -/
def Unwaited (calls : List Operation) (n i : Nat) : Prop :=
  ∀ j, i ≤ j → j < n → calls[j]? ≠ some .wait

/-- The batch that was aborted last, whatever was finished since. -/
structure LastAborted (s : Sheet) (calls : List Operation) (i : Nat) (e : CellError) : Prop where
  aborts : s.AbortsAt calls i e
  latest : ∀ j e', i < j → ¬ s.AbortsAt calls j e'

/-- The latest batch that came to its end was aborted. -/
structure LatestAborts (s : Sheet) (calls : List Operation) (i : Nat) (e : CellError) : Prop
    extends LastAborted s calls i e where
  unfinished : ∀ j, i < j → ¬ s.FinishesAt calls j

/-- The batch that was aborted last is one whose error no wait has collected. -/
structure Uncollected (s : Sheet) (calls : List Operation) (n i : Nat) (e : CellError) : Prop
    extends LastAborted s calls i e where
  waits : Unwaited calls n i

/-- A batch was finished while the error of an earlier one was there. -/
def Outlived (s : Sheet) (calls : List Operation) (n : Nat) : Prop :=
  ∃ i e, s.Uncollected calls n i e ∧ ∃ j, i < j ∧ s.FinishesAt calls j

theorem AbortsAt.lt (h : s.AbortsAt calls i e) : i < calls.length := by
  obtain ⟨op, hop, -⟩ := h
  exact (List.getElem?_eq_some_iff.mp hop).1

theorem abortsAt_concat_of_lt (hi : i < ops.length) :
    s.AbortsAt (ops ++ [op]) i e ↔ s.AbortsAt ops i e := by
  obtain ⟨htake, hget⟩ := take_concat op hi
  rw [AbortsAt, htake, hget, AbortsAt]

theorem abortsAt_concat_length :
    s.AbortsAt (ops ++ [op]) ops.length e ↔ op.Aborts (s.run ops) e := by
  rw [AbortsAt, take_length_concat.1, take_length_concat.2]
  simp only [Option.some.injEq, exists_eq_left']

/-- The last call aborts a batch: it is this one. -/
theorem uncollected_concat_of_aborts (h : op.Aborts (s.run ops) e') :
    s.Uncollected (ops ++ [op]) ops.length i e ↔
      i = ops.length ∧ op.Aborts (s.run ops) e := by
  constructor
  · intro hu
    have hi : i = ops.length := by
      have hlt := hu.aborts.lt
      have hle : ¬ i < ops.length := fun hi =>
        hu.latest _ _ hi (abortsAt_concat_length.mpr h)
      rw [List.length_append, List.length_singleton] at hlt
      omega
    exact ⟨hi, abortsAt_concat_length.mp (hi ▸ hu.aborts)⟩
  · rintro ⟨rfl, ha⟩
    refine ⟨⟨abortsAt_concat_length.mpr ha, fun j e' hj hj' => ?_⟩, fun j hj hn => ?_⟩
    · have hlt := hj'.lt
      rw [List.length_append, List.length_singleton] at hlt
      omega
    · omega

/-- The last call aborts none: it is the one of the calls before. -/
theorem uncollected_concat_of_not (h : ∀ e, ¬ op.Aborts (s.run ops) e) :
    s.Uncollected (ops ++ [op]) ops.length i e ↔ s.Uncollected ops ops.length i e := by
  have hsame (j : Nat) (e : CellError) :
      s.AbortsAt (ops ++ [op]) j e ↔ s.AbortsAt ops j e := by
    rcases Nat.lt_trichotomy j ops.length with hj | rfl | hj
    · exact abortsAt_concat_of_lt hj
    · rw [abortsAt_concat_length]
      exact iff_of_false (h e) fun ha => Nat.lt_irrefl _ ha.lt
    · refine iff_of_false (fun ha => ?_) fun ha => absurd ha.lt (Nat.lt_asymm hj)
      have hlt := ha.lt
      rw [List.length_append, List.length_singleton] at hlt
      omega
  have hlast : s.LastAborted (ops ++ [op]) i e ↔ s.LastAborted ops i e := by
    refine ⟨fun ⟨ha, hlatest⟩ => ⟨(hsame i e).mp ha, ?_⟩, fun ⟨ha, hlatest⟩ =>
      ⟨(hsame i e).mpr ha, ?_⟩⟩
    · exact fun j e' hj ha' => hlatest j e' hj ((hsame j e').mpr ha')
    · exact fun j e' hj ha' => hlatest j e' hj ((hsame j e').mp ha')
  have hget (j : Nat) (hj : j < ops.length) : (ops ++ [op])[j]? = ops[j]? :=
    (take_concat op hj).2
  constructor
  · rintro ⟨ha, hwaits⟩
    exact ⟨hlast.mp ha, fun j hj hn => hget j hn ▸ hwaits j hj hn⟩
  · rintro ⟨ha, hwaits⟩
    exact ⟨hlast.mpr ha, fun j hj hn => (hget j hn).symm ▸ hwaits j hj hn⟩

/-- When the last call is done it has returned as well; unless it waits, this changes nothing. -/
theorem uncollected_concat_succ :
    s.Uncollected (ops ++ [op]) (ops ++ [op]).length i e ↔
      s.Uncollected (ops ++ [op]) ops.length i e ∧ op ≠ .wait := by
  have hlength : (ops ++ [op]).length = ops.length + 1 := List.length_append
  constructor
  · rintro ⟨ha, hwaits⟩
    refine ⟨⟨ha, fun j hj hn => hwaits j hj (by omega)⟩, fun hwait => ?_⟩
    have hlt := ha.aborts.lt
    exact hwaits ops.length (by omega) (by omega) (take_length_concat.2.trans (hwait ▸ rfl))
  · rintro ⟨⟨ha, hwaits⟩, hop⟩
    refine ⟨ha, fun j hj hn hwait => ?_⟩
    by_cases hlt : j < ops.length
    · exact hwaits j hj hlt hwait
    · obtain rfl : j = ops.length := by omega
      exact hop (Option.some.inj (take_length_concat.2.symm.trans hwait))

/-- What a call does to the error, as far as it is that of the batch that was aborted last. -/
theorem error?_concat (hs : (s.run ops).schedule.Regular)
    (h : ∀ e, (s.run ops).lastError = some e ↔ ∃ i, s.Uncollected ops ops.length i e) (e) :
    op.error? (s.run ops) = some e ↔ ∃ i, s.Uncollected (ops ++ [op]) ops.length i e := by
  by_cases ha : ∃ e', op.Aborts (s.run ops) e'
  · obtain ⟨e', ha⟩ := ha
    simp only [uncollected_concat_of_aborts ha, exists_eq_left]
    refine ⟨fun he => ?_, fun ha' => ha'.error? hs⟩
    cases (ha.error? hs).symm.trans he
    exact ha
  · have hno (e') (ha' : op.Aborts (s.run ops) e') : False := ha ⟨e', ha'⟩
    simp only [uncollected_concat_of_not hno, Operation.error?_of_not_aborts hs hno, h]

theorem lastError_run (hs : s.schedule.Regular) (hnone : s.lastError = none)
    (ops : List Operation) (e : CellError) :
    (s.run ops).lastError = some e ↔ ∃ i, s.Uncollected ops ops.length i e := by
  induction ops using List.reverseRecOn generalizing e with
  | nil =>
    refine iff_of_false ?_ fun ⟨i, hu⟩ => Nat.not_lt_zero i hu.aborts.lt
    rw [show s.run [] = s from rfl, hnone]
    exact nofun
  | append_singleton ops op ih =>
    simp only [run_concat, uncollected_concat_succ]
    by_cases hwait : op = .wait
    · subst hwait
      simp [Operation.lastError_wait]
    · rw [← Operation.settled_of_ne hwait]
      simp only [hwait, ne_eq, not_false_eq_true, and_true]
      exact error?_concat (regular_run hs ops) ih e

theorem wait_eq_error_iff : s.wait.2 = .error e ↔ Operation.wait.error? s = some e := by
  show s.wait.2 = .error e ↔ s.settle.lastError = some e
  unfold wait
  dsimp only
  split
  · rename_i e' he
    rw [he, Except.error.injEq, Option.some.injEq]
  · rename_i he
    rw [he]
    exact ⟨nofun, nofun⟩

theorem LatestAborts.uncollected (h : s.LatestAborts calls i e) (hwaits : Unwaited calls n i) :
    s.Uncollected calls n i e := ⟨h.toLastAborted, hwaits⟩

theorem Uncollected.latestAborts (h : s.Uncollected calls n i e) (hno : ¬ s.Outlived calls n) :
    s.LatestAborts calls i e :=
  ⟨h.toLastAborted, fun j hj hfinishes => hno ⟨i, e, h, j, hj, hfinishes⟩⟩

/-- There is only one batch that came to its end last. -/
theorem LatestAborts.not_outlived (h : s.LatestAborts calls i e) : ¬ s.Outlived calls n := by
  rintro ⟨i', e', hu, j, hj, hfinishes⟩
  rcases Nat.lt_trichotomy i i' with hi | rfl | hi
  · exact h.latest i' e' hi hu.aborts
  · exact h.unfinished j hj hfinishes
  · exact hu.latest i e hi h.aborts

/-- An error of the batch that was aborted last is one of the latest batch, unless a batch was
    finished in between. -/
theorem forall_latestAborts_iff {left : CellError → Prop}
    (hleft : ∀ e, left e ↔ ∃ i, s.Uncollected calls n i e) :
    (∀ e, left e → ∃ i, s.LatestAborts calls i e) ↔ ¬ s.Outlived calls n := by
  constructor
  · rintro h ⟨i, e, hu, hfinishes⟩
    obtain ⟨i', hlatest⟩ := h e ((hleft e).mpr ⟨i, hu⟩)
    exact hlatest.not_outlived ⟨i, e, hu, hfinishes⟩
  · rintro hno e he
    obtain ⟨i, hu⟩ := (hleft e).mp he
    exact ⟨i, hu.latestAborts hno⟩

/-- Take any sheet that calls lead to. The error that is left is that of the batch that was aborted
    last, if no wait has returned since. It is that of the latest batch exactly if no batch was
    finished in between. The next wait gives an error exactly if it goes through a batch that is
    aborted, or goes through none or finishes one and an error is left; so here too the error is
    that of the latest batch exactly if none was finished in between. -/
theorem lastError_iff_of_run (schema : Schema) (policy : Policy) (executor : Option Executor)
    (ops : List Operation) :
    let s₀ := new schema policy executor
    let s := s₀.run ops
    let waited := ops ++ [.wait]
    (∀ e, s.lastError = some e ↔ ∃ i, s₀.Uncollected ops ops.length i e) ∧
    ((∀ e, s.lastError = some e ↔
        ∃ i, s₀.LatestAborts ops i e ∧ Unwaited ops ops.length i) ↔
      ¬ s₀.Outlived ops ops.length) ∧
    (∀ e, s.wait.2 = .error e ↔ ∃ i, s₀.Uncollected waited ops.length i e) ∧
    ((∀ e, s.wait.2 = .error e → ∃ i, s₀.LatestAborts waited i e) ↔
      ¬ s₀.Outlived waited ops.length) := by
  intro s₀ s waited
  have hregular : s₀.schedule.Regular := regular_new schema policy executor
  have hlast (e) : s.lastError = some e ↔ ∃ i, s₀.Uncollected ops ops.length i e :=
    lastError_run hregular rfl ops e
  have hwait (e) : s.wait.2 = .error e ↔ ∃ i, s₀.Uncollected waited ops.length i e :=
    wait_eq_error_iff.trans (error?_concat (regular_run hregular ops) hlast e)
  refine ⟨hlast, ⟨fun h => ?_, fun hno e => ?_⟩, hwait, forall_latestAborts_iff hwait⟩
  · refine (forall_latestAborts_iff hlast).mp fun e he => ?_
    obtain ⟨i, hlatest, -⟩ := (h e).mp he
    exact ⟨i, hlatest⟩
  · refine (hlast e).trans ⟨fun ⟨i, hu⟩ => ?_, fun ⟨i, hlatest, hwaits⟩ => ?_⟩
    · exact ⟨i, hu.latestAborts hno, hu.waits⟩
    · exact ⟨i, hlatest.uncollected hwaits⟩

/-- After a call that aborts a batch, something is still to be saved. -/
theorem not_abortsAt (hs : s.Vocal) (hop : calls[i]? = some op)
    (hclean : (op.apply (s.run (calls.take i))).status = .clean) : ¬ s.AbortsAt calls i e := by
  rintro ⟨op', hop', names, hcarries⟩
  obtain rfl : op = op' := Option.some.inj (hop.symm.trans hop')
  have hvocal : (s.run (calls.take i)).Vocal := vocal_run hs _
  have hdirty := (hcarries.announces hvocal.regular hvocal.dirty).2.1
  cases hdirty.symm.trans hclean

/-- If a batch was finished after the last one that was aborted, the latest one is finished. -/
theorem not_latestAborts (hfinishes : s.FinishesAt calls j)
    (hno : ∀ i e, j ≤ i → ¬ s.AbortsAt calls i e) : ¬ s.LatestAborts calls i e :=
  fun h => hno i e (Nat.le_of_not_lt fun hi => h.unfinished j hi hfinishes) h.aborts

end Runs

/-- Where the last cell of the refused run is written. -/
theorem run_third :
    let s := (new .empty .none none).run (refusing.take 3)
    let t := ((s.touch "c").update "c" (written .null)).startTransaction.markDirty "c"
    (t.depth, t.planned, s.running, stop false t.visits) = (1, ["c"], false, .goesOn) := by
  simp only [refusing, List.take, run, List.foldl, Operation.apply, createDynamic, List.map,
    connect, Graph.addEdge, ite_or, ← Bool.cond_eq_ite]
  cbv

theorem run_refusing_error :
    let s := (new .empty .none none).run refusing
    (s.lastError, Operation.wait.error? s, s.status, s.wait.1.status) =
    (some (.computation "b" "refused"), some (.computation "b" "refused"), .clean, .clean) := by
  simp only [refusing, run, List.foldl, Operation.apply, createDynamic, List.map, connect,
    Graph.addEdge, ite_or, ← Bool.cond_eq_ite]
  cbv

/-- The batch of `c` is finished after that of `b` was refused, and still the error is there. -/
theorem lastError_of_refusing :
    let s₀ := new .empty .none none
    let s := s₀.run refusing
    s.lastError = some (.computation "b" "refused") ∧
    s.wait.2 = .error (.computation "b" "refused") ∧
    s₀.FinishesAt refusing 3 ∧
    (∀ i e, ¬ s₀.LatestAborts refusing i e) ∧
    ∀ i e, ¬ s₀.LatestAborts (refusing ++ [.wait]) i e := by
  intro s₀ s
  obtain ⟨hdepth, hplanned, hidle, hnext⟩ := by simpa only [Prod.mk.injEq] using run_third
  obtain ⟨hlast, herror, hclean, hwaited⟩ := by
    simpa only [Prod.mk.injEq] using run_refusing_error
  have hvocal : s₀.Vocal := vocal_new .empty .none none
  have hclose : (Operation.set "c" .null).ClosesOn (s₀.run (refusing.take 3)) _ :=
    .invalidate (t := ((s₀.run (refusing.take 3)).touch "c").update "c" (written .null))
      rfl (schedule_of_withoutCells withoutCells_touch) set_eq
  have hcarries := Operation.Carries.starts hclose
    ((bare_foldl_markDirty _ ["c"]).trans (bare_of_withoutCells withoutCells_touch))
    (Nat.le_of_eq hdepth) (ne_of_eq_of_ne hplanned (List.cons_ne_nil _ _)) hidle
  have hfinishes : (Operation.set "c" .null).Finishes (s₀.run (refusing.take 3)) :=
    ⟨_, hnext ▸ hcarries⟩
  have hset (e : CellError) : ¬ s₀.AbortsAt refusing 3 e := not_abortsAt hvocal rfl hclean
  have hno (i : Nat) (e : CellError) (hi : 3 ≤ i) : ¬ s₀.AbortsAt refusing i e := fun ha => by
    obtain rfl : i = 3 := Nat.le_antisymm (Nat.le_of_lt_succ ha.lt) hi
    exact hset e ha
  have hno' (i : Nat) (e : CellError) (hi : 3 ≤ i) :
      ¬ s₀.AbortsAt (refusing ++ [.wait]) i e := fun ha => by
    rcases Nat.eq_or_lt_of_le (Nat.le_of_lt_succ ha.lt) with rfl | hlt
    · have hget : (refusing ++ [Operation.wait])[4]? = some .wait := rfl
      exact not_abortsAt hvocal hget hwaited ha
    · have hlt : i < refusing.length := hlt
      exact hno i e hi ((abortsAt_concat_of_lt hlt).mp ha)
  refine ⟨hlast, wait_eq_error_iff.mpr herror, ⟨_, rfl, hfinishes⟩, fun i e => ?_, fun i e => ?_⟩
  · exact not_latestAborts ⟨_, rfl, hfinishes⟩ hno
  · exact not_latestAborts (j := 3) ⟨_, rfl, hfinishes⟩ hno'

end Sheet

end QuerySheet
