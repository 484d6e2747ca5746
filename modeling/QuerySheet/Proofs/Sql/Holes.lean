import QuerySheet.Proofs.Sql.Tasks
import QuerySheet.Proofs.Sql.Steps

/-!
# Holes and bind sites

While a text is compiled, a bind site is recorded for every parameter in it. A `Tally` compares the
occurrences that were recorded with the holes of the text:

* the holes are among the occurrences, in the same order;
* they are all of them exactly if no task drops a left side (`Task.Drops`);
* there are none exactly if no task binds a parameter (`Task.Binds`).

`Adds` says this of the sites that a compilation adds to a ledger. Names, casts and types add none
(`Quiet`), and a cast keeps the holes of its operand (`Keeps`).
-/

namespace QuerySheet.Sql

/-! ## 1. The holes of a template -/

namespace Template

@[simp] theorem holes_append (t u : Template) : (t ++ u).holes = t.holes ++ u.holes :=
  List.filterMap_append

@[simp] theorem holes_ofString (s : String) : (ofString s).holes = [] := by
  show (s.toList.map Sign.char).filterMap Sign.ref? = []
  rw [List.filterMap_map]
  exact List.filterMap_eq_nil_iff.mpr fun c _ => rfl

@[simp] theorem holes_intercalate (separator : String) (ts : List Template) :
    (intercalate separator ts).holes = ts.flatMap holes := by
  induction ts with
  | nil => rfl
  | cons t ts ih =>
    cases ts with
    | nil => rw [intercalate, List.flatMap_singleton]
    | cons u rest =>
      rw [intercalate, holes_append, holes_append, holes_ofString, List.append_nil, ih,
        List.flatMap_cons (x := t)]

@[simp] theorem holes_parens (t : Template) : t.parens.holes = t.holes := by
  rw [parens, holes_append, holes_append, holes_ofString, holes_ofString, List.nil_append,
    List.append_nil]

@[simp] theorem holes_call (name : String) (args : List Template) :
    (call name args).holes = args.flatMap holes := by
  rw [call, holes_append, holes_ofString, List.nil_append, holes_parens, holes_intercalate]

end Template

/-! ## 2. Tallies -/

/-- What was recorded while tasks were run, against the holes of the text that they gave. -/
structure Tally (tasks : List Task) (recorded holes : List ParamRef) : Prop where
  sublist : holes.Sublist recorded
  exact_iff : holes = recorded ↔ ∀ t ∈ tasks, ¬ t.Drops
  none_iff : recorded = [] ↔ ∀ t ∈ tasks, ¬ t.Binds

namespace Tally

variable {tasks more : List Task} {recorded holes recorded' holes' : List ParamRef}

theorem nil : Tally [] [] [] where
  sublist := .slnil
  exact_iff := by simp
  none_iff := by simp

theorem append (h : Tally tasks recorded holes) (h' : Tally more recorded' holes') :
    Tally (tasks ++ more) (recorded ++ recorded') (holes ++ holes') where
  sublist := h.sublist.append h'.sublist
  exact_iff := by
    -- Neither part has more holes than were recorded, so lengths decide where to split.
    have hsplit : holes ++ holes' = recorded ++ recorded' ↔
        holes = recorded ∧ holes' = recorded' := by
      constructor
      · intro e
        have hle := h.sublist.length_le
        have hle' := h'.sublist.length_le
        have hlen := congrArg List.length e
        rw [List.length_append, List.length_append] at hlen
        exact List.append_inj e (by omega)
      · rintro ⟨rfl, rfl⟩
        rfl
    rw [hsplit, h.exact_iff, h'.exact_iff, List.forall_mem_append]
  none_iff := by rw [List.append_eq_nil_iff, h.none_iff, h'.none_iff, List.forall_mem_append]

/-- A text that is written twice. -/
theorem twice (h : Tally tasks recorded holes) :
    Tally tasks (recorded ++ recorded) (holes ++ holes) where
  sublist := h.sublist.append h.sublist
  exact_iff := by
    rw [(h.append h).exact_iff, List.forall_mem_append, and_self]
  none_iff := by rw [List.append_eq_nil_iff, and_self, h.none_iff]

/-- The tasks that a task calls stand for it, unless it binds or drops something itself. -/
theorem expand {t : Task} (h : Tally tasks recorded holes) (ht : t.Expands tasks)
    (hbind : ¬ t.BindsHere) (hdrop : ¬ t.DropsHere) : Tally [t] recorded holes where
  sublist := h.sublist
  exact_iff := by
    rw [h.exact_iff, List.forall_mem_singleton, Task.Drops, Task.some_iff ht]
    simp [hdrop, Task.Drops]
  none_iff := by
    rw [h.none_iff, List.forall_mem_singleton, Task.Binds, Task.some_iff ht]
    simp [hbind, Task.Binds]

/-- A task that binds one parameter and calls no other. -/
theorem one {t : Task} (ref : ParamRef) (ht : t.Expands []) (hbind : t.BindsHere)
    (hdrop : ¬ t.DropsHere) : Tally [t] [ref] [ref] where
  sublist := List.Sublist.refl _
  exact_iff := by
    rw [List.forall_mem_singleton, Task.Drops, Task.some_iff ht]
    simp [hdrop]
  none_iff := by
    rw [List.forall_mem_singleton, Task.Binds, Task.some_iff ht]
    simp [hbind]

/-- Where nothing was recorded there are no holes, and nothing was dropped. -/
theorem not_drops (h : Tally tasks [] holes) : holes = [] ∧ ∀ t ∈ tasks, ¬ t.Drops := by
  have hholes : holes = [] := List.sublist_nil.mp h.sublist
  exact ⟨hholes, h.exact_iff.mp hholes⟩

end Tally

/-! ## 3. Ledgers -/

/-- The occurrences of parameters that a ledger has sites for. -/
def Ledger.refs (l : Ledger) : List ParamRef := l.sites.map Site.ref

/-- From one ledger to another tasks were run, and gave a text with these holes. -/
def Adds (tasks : List Task) (l l' : Ledger) (holes : List ParamRef) : Prop :=
  ∃ recorded, l'.refs = l.refs ++ recorded ∧ Tally tasks recorded holes

namespace Adds

variable {tasks more : List Task} {l l₁ l' : Ledger} {holes holes' : List ParamRef}

theorem of_refs (h : l'.refs = l.refs) : Adds [] l l' [] := ⟨[], by rw [h, List.append_nil], .nil⟩

theorem append (h : Adds tasks l l₁ holes) (h' : Adds more l₁ l' holes') :
    Adds (tasks ++ more) l l' (holes ++ holes') := by
  obtain ⟨recorded, hl, htally⟩ := h
  obtain ⟨recorded', hl', htally'⟩ := h'
  exact ⟨recorded ++ recorded', by rw [hl', hl, List.append_assoc], htally.append htally'⟩

/-- A step that records nothing may come behind. -/
theorem keep (h : Adds tasks l l₁ holes) (hl : l'.refs = l₁.refs) : Adds tasks l l' holes := by
  obtain ⟨recorded, hl₁, htally⟩ := h
  exact ⟨recorded, hl.trans hl₁, htally⟩

theorem expand {t : Task} (h : Adds tasks l l' holes) (ht : t.Expands tasks)
    (hbind : ¬ t.BindsHere) (hdrop : ¬ t.DropsHere) : Adds [t] l l' holes := by
  obtain ⟨recorded, hl, htally⟩ := h
  exact ⟨recorded, hl, htally.expand ht hbind hdrop⟩

/-- Where no parameter is bound there are no holes. -/
theorem holes_of_not_binds (h : Adds tasks l l' holes) (hno : ∀ t ∈ tasks, ¬ t.Binds) :
    holes = [] := by
  obtain ⟨recorded, -, htally⟩ := h
  rw [htally.none_iff.mpr hno] at htally
  exact htally.not_drops.1

/-- A task that calls no other and binds no parameter. -/
theorem leaf {t : Task} (h : l'.refs = l.refs) (ht : t.Expands []) (hbind : ¬ t.BindsHere)
    (hdrop : ¬ t.DropsHere) : Adds [t] l l' [] :=
  (of_refs h).expand ht hbind hdrop

end Adds

/-! ## 4. Steps that record nothing -/

open Compile (Moves Trace)

/-- Whatever its outcome, a compilation records no site. -/
def Quiet {α : Type} (m : Compile α) : Prop := Moves (fun _ l l' => l'.refs = l.refs) m

theorem trace_refs : Trace fun _ l l' => l'.refs = l.refs where
  refl _ _ := rfl
  trans _ _ _ _ h h' := h'.trans h
  frames _ _ _ _ h := h

theorem Quiet.refs {α : Type} {m : Compile α} {s : Scope} {l l' : Ledger} {a : α} (hm : Quiet m)
    (h : m.Yields s l a l') : l'.refs = l.refs := by
  have hrefs := hm s l
  rw [h] at hrefs
  exact hrefs

theorem quiet_modify {g : Ledger → Ledger} (h : ∀ l, (g l).refs = l.refs) :
    Quiet (modify g : Compile Unit) :=
  fun _ l => h l

theorem refs_pushSite {name : String} {s : Scope} {l l' : Ledger} {ref : ParamRef}
    (h : (Compile.pushSite name).Yields s l ref l') : l'.refs = l.refs ++ [ref] := by
  unfold Compile.pushSite at h
  simp only [Compile.yields_bind, Compile.yields_get, Compile.yields_pure] at h
  obtain ⟨_, _, hmodify, _, _, ⟨rfl, rfl⟩, rfl, rfl⟩ := h
  rw [Compile.yields_modify.mp hmodify]
  show (l.sites ++ [_]).map Site.ref = _
  rw [List.map_append]
  rfl

theorem quiet_of_after {α : Type} {m : Compile α}
    (h : ∀ s l, m.After s l (fun _ l' => l'.refs = l.refs) (fun l' => l'.refs = l.refs)) :
    Quiet m :=
  fun s l => (h s l).ledger

theorem Quiet.after {α : Type} {m : Compile α} (hm : Quiet m) (s : Scope) (l : Ledger) :
    m.After s l (fun _ l' => l'.refs = l.refs) (fun l' => l'.refs = l.refs) := by
  have hrefs := hm s l
  unfold Compile.After
  split <;> rename_i h <;> rw [h] at hrefs <;> exact hrefs

theorem quiet_inferParam (ref : ParamRef) (type : ValueType) :
    Quiet (Compile.inferParam ref type) := by
  have hmap (sites : List Site) : (sites.map fun site =>
      if site.id = ref.id ∧ site.type.isNone then { site with type := some type } else site).map
        Site.ref = sites.map Site.ref := by
    rw [List.map_map]
    refine List.map_congr_left fun site _ => ?_
    rw [Function.comp_apply]
    split <;> rfl
  refine quiet_of_after fun s l => ?_
  unfold Compile.inferParam
  rw [Compile.after_bind, Compile.after_get]
  split
  · split
    · exact rfl
    · exact hmap l.sites
  · exact hmap l.sites

theorem quiet_resolve (path : String) : Quiet (Path.resolve path) :=
  holds_resolve (pathSteps_of_joins trace_refs.closed (moves_joins fun _ _ _ _ => rfl)) path

theorem quiet_resolveRef (parent : Option String) (field target : String) :
    Quiet (Path.resolveRef parent field target) :=
  holds_resolveRef trace_refs.closed (moves_joins fun _ _ _ _ => rfl) parent field target

/-- Reading a field gives a text without holes. -/
theorem compileField_reads (reference : String) (s : Scope) (l : Ledger) :
    (Path.compileField reference).After s l
      (fun o l' => l'.refs = l.refs ∧ ∃ (text : Template) (type : ValueType),
        o = .fragment text type ∧ text.holes = [])
      (fun l' => l'.refs = l.refs) := by
  have hcolumn (label name : String) : (Template.ofString label ++ "." ++ name).holes = [] := by
    simp
  have hid (label : String) : (Template.ofString label ++ ".id").holes = [] := by simp
  unfold Path.compileField
  rw [Compile.after_bind]
  refine (Quiet.after (holds_fieldName trace_refs.closed.toComposes trace_refs.closed.read
    reference) s l).mono (fun name l₁ h₁ => ?_) fun _ h₁ => h₁
  dsimp only
  split
  · exact h₁
  · generalize (Path.split name).2 = field
    simp only [Compile.after_bind, Compile.after_read]
    cases (Path.split name).1 with
    | none =>
      simp only [Compile.after_bind, Compile.after_pure, Compile.after_require]
      refine ⟨fun t ht => ⟨fun desc hdesc => ?_, fun _ => h₁⟩, fun _ => h₁⟩
      split
      · rename_i target htarget
        split
        · rw [Compile.after_bind]
          exact ((quiet_resolveRef none field target).after s l₁).mono
            (fun j l₂ h₂ => ⟨h₂.trans h₁, _, _, rfl, hid _⟩) fun _ h₂ => h₂.trans h₁
        · exact ⟨h₁, _, _, rfl, hcolumn _ _⟩
      · exact ⟨h₁, _, _, rfl, hcolumn _ _⟩
    | some path =>
      simp only [Compile.after_bind, Compile.after_pure, Compile.after_require]
      refine ((quiet_resolve path).after s l₁).mono (fun j l₂ h₂ => ?_) fun _ h₂ => h₂.trans h₁
      have hrefs := h₂.trans h₁
      refine ⟨fun t ht => ⟨fun desc hdesc => ?_, fun _ => hrefs⟩, fun _ => hrefs⟩
      split
      · rename_i target htarget
        split
        · rw [Compile.after_bind]
          exact ((quiet_resolveRef _ field target).after s l₂).mono
            (fun j l₃ h₃ => ⟨h₃.trans hrefs, _, _, rfl, hid _⟩) fun _ h₃ => h₃.trans hrefs
        · exact ⟨hrefs, _, _, rfl, hcolumn _ _⟩
      · exact ⟨hrefs, _, _, rfl, hcolumn _ _⟩

/-! ## 5. Operands -/

/-- The holes of the text of an operand. -/
def Operand.holes (o : Operand) : List ParamRef := o.sql.holes

@[simp] theorem holes_fragment (sql : Template) (type : ValueType) :
    (Operand.fragment sql type).holes = sql.holes := rfl

/-- A literal has no holes. -/
def Operand.Filled (o : Operand) : Prop := o.literal = true → o.holes = []

theorem filled_fragment (sql : Template) (type : ValueType) : (Operand.fragment sql type).Filled :=
  fun h => by cases h

theorem filled_ofLiteral (text : String) (type : ValueType) :
    (Operand.ofLiteral text type).Filled :=
  fun _ => Template.holes_ofString text

/-- A compilation that gives an operand with the holes of another, and records nothing. -/
def Keeps (o : Operand) (m : Compile Operand) : Prop :=
  ∀ s l o' l', m.Yields s l o' l' → o'.Filled ∧ o'.holes = o.holes ∧ l'.refs = l.refs

namespace Keeps

variable {o o' : Operand}

theorem pure (hfilled : o'.Filled) (hholes : o'.holes = o.holes) :
    Keeps o (Pure.pure o' : Compile Operand) := by
  intro s l a l' h
  obtain ⟨rfl, rfl⟩ := Compile.yields_pure.mp h
  exact ⟨hfilled, hholes, rfl⟩

theorem fail (cause : CompileError.Cause) : Keeps o (Compile.fail cause : Compile Operand) :=
  fun _ _ _ _ h => absurd h Compile.yields_fail

/-- Another literal in the place of one. -/
theorem literal (ho : o.Filled) (hliteral : o.literal = true) (text : String) (type : ValueType) :
    Keeps o (Pure.pure (.ofLiteral text type) : Compile Operand) :=
  pure (filled_ofLiteral text type) ((Template.holes_ofString text).trans (ho hliteral).symm)

theorem retag (ho : o.Filled) (type : ValueType) :
    Keeps o (Pure.pure (o.retag type) : Compile Operand) :=
  pure ho rfl

theorem bind {m : Compile Operand} {f : Operand → Compile Operand} (hm : Keeps o m)
    (hf : ∀ a, a.Filled → a.holes = o.holes → Keeps o (f a)) : Keeps o (m >>= f) := by
  intro s l b l' h
  obtain ⟨a, l₁, ha, hb⟩ := Compile.yields_bind.mp h
  obtain ⟨hfilled, hholes, hrefs⟩ := hm s l a l₁ ha
  obtain ⟨hfilled', hholes', hrefs'⟩ := hf a hfilled hholes s l₁ b l' hb
  exact ⟨hfilled', hholes', hrefs'.trans hrefs⟩

end Keeps

theorem keeps_toDate {o : Operand} (ho : o.Filled) : Keeps o o.toDate := by
  unfold Operand.toDate
  split
  · exact .pure ho rfl
  · split
    · rename_i hliteral
      dsimp only
      split
      · exact .literal ho hliteral _ _
      · exact .fail _
    · exact .fail _
  · exact .retag ho _
  · exact .fail _

theorem truncateDate_holes {o : Operand} (ho : o.Filled) (digits : Nat) (type : ValueType) :
    (o.truncateDate digits type).Filled ∧ (o.truncateDate digits type).holes = o.holes := by
  unfold Operand.truncateDate
  split
  · rename_i hliteral
    exact ⟨filled_ofLiteral _ _, (Template.holes_ofString _).trans (ho hliteral).symm⟩
  · refine ⟨filled_fragment _ _, ?_⟩
    rw [holes_fragment]
    simp [Operand.holes]

theorem keeps_convert {o : Operand} (ho : o.Filled) (target : ValueType) :
    Keeps o (o.convert target) := by
  have hleading (digits : Nat) (type : ValueType) (a : Operand) (ha : a.Filled)
      (hholes : a.holes = o.holes) :
      Keeps o (pure (a.truncateDate digits type) : Compile Operand) := by
    obtain ⟨hfilled, htruncated⟩ := truncateDate_holes ha digits type
    exact .pure hfilled (htruncated.trans hholes)
  unfold Operand.convert
  split
  · exact keeps_toDate ho
  · split
    · exact .bind (keeps_toDate ho) (hleading 6 .dateMonth)
    · exact .bind (keeps_toDate ho) (hleading 6 .dateMonth)
    · exact .bind (keeps_toDate ho) (hleading 6 .dateMonth)
    · exact .fail _
  · split
    · exact .bind (keeps_toDate ho) (hleading 4 .dateYear)
    · exact .bind (keeps_toDate ho) (hleading 4 .dateYear)
    · exact .bind (keeps_toDate ho) (hleading 4 .dateYear)
    · exact hleading 4 .dateYear o ho rfl
    · exact .fail _
  · split
    · exact .retag ho _
    · exact .retag ho _
    · exact .retag ho _
    · exact .fail _

theorem keeps_cast {o : Operand} (ho : o.Filled) (target : ValueType) :
    Keeps o (o.cast target) := by
  unfold Operand.cast
  split
  · exact .pure ho rfl
  · split
    · intro s l o' l' h
      obtain ⟨_, l₁, hinfer, hretag⟩ := Compile.yields_bind.mp h
      obtain ⟨hfilled, hholes, hrefs⟩ := Keeps.retag ho target s l₁ o' l' hretag
      exact ⟨hfilled, hholes, hrefs.trans ((quiet_inferParam _ _).refs hinfer)⟩
    · split
      · split
        · exact .fail _
        · rename_i hliteral
          have hliteral : o.literal = true := by simpa using hliteral
          split
          · exact .literal ho hliteral _ _
          · exact .pure ho rfl
      · exact keeps_convert ho target

theorem keeps_argument {o : Operand} (ho : o.Filled) (p : Parameter) :
    Keeps o <| Parameter.admit p o := by
  cases p with
  | any => exact .pure ho rfl
  | castable type => exact .bind (keeps_cast ho type) fun _ _ _ => .pure ho rfl
  | cast type => exact keeps_cast ho type

theorem ofScalar_reads {v : Json} {s : Scope} {l l' : Ledger} {o : Operand}
    (h : (Operand.ofScalar v).Yields s l o l') : o.Filled ∧ o.holes = [] ∧ l'.refs = l.refs := by
  have hliteral (text : String) (type : ValueType) : (Operand.ofLiteral text type).Filled ∧
      (Operand.ofLiteral text type).holes = [] :=
    ⟨filled_ofLiteral text type, Template.holes_ofString text⟩
  have hnumber (n : Number) : (Operand.ofNumber n).Filled ∧ (Operand.ofNumber n).holes = [] := by
    unfold Operand.ofNumber
    split
    · exact hliteral _ _
    · split
      · split
        · exact hliteral _ _
        · exact hliteral _ _
      · exact hliteral _ _
  cases v with
  | null | bool | string =>
    obtain ⟨rfl, rfl⟩ := Compile.yields_pure.mp h
    exact ⟨(hliteral _ _).1, (hliteral _ _).2, rfl⟩
  | number n =>
    obtain ⟨rfl, rfl⟩ := Compile.yields_pure.mp h
    exact ⟨(hnumber n).1, (hnumber n).2, rfl⟩
  | array | object => exact absurd h Compile.yields_fail

end QuerySheet.Sql
