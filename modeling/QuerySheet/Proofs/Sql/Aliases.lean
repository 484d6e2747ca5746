import Std.Data.String.ToNat
import Mathlib.Data.List.Nodup
import QuerySheet.Proofs.Sql.Clauses

/-!
# The names of the relations

Each join of a statement has the name of its table with a running number behind it.

* `label_of_compile`: the number is the place of the join, counted from one;
* `eq_append_iff`: so two joins share a name exactly if the name of the earlier one's table ends in
  digits that the place of the later one begins with;
* `nodup_relationNames_iff`: when the relations of a statement have different names.
-/

namespace QuerySheet

namespace Sql

variable {policy : Policy} {schema : Schema} {q : Query} {c : CompiledQuery}

/-! ## 1. Running numbers -/

/-- A larger number is not written with fewer digits. -/
theorem length_toString_le {m n : Nat} (h : m ≤ n) :
    (toString m).toList.length ≤ (toString n).toList.length := by
  show m.repr.toList.length ≤ n.repr.toList.length
  rw [Nat.toList_repr, Nat.toList_repr]
  have hpos : 0 < (Nat.toDigits 10 n).length := Nat.length_toDigits_pos
  have hn : n < 10 ^ (Nat.toDigits 10 n).length :=
    (Nat.length_toDigits_le_iff (by decide) hpos).mp (Nat.le_refl _)
  exact (Nat.length_toDigits_le_iff (by decide) hpos).mpr (Nat.lt_of_le_of_lt h hn)

/-- Names with numbers behind them are the same exactly if what the first name has more are digits
    that the second number has more. -/
theorem eq_append_iff {name name' : String} {m n : Nat} (h : m ≤ n) :
    name ++ toString m = name' ++ toString n ↔
      ∃ digits : String, name = name' ++ digits ∧ toString n = digits ++ toString m := by
  constructor
  · intro heq
    have hchars : name.toList ++ (toString m).toList = name'.toList ++ (toString n).toList := by
      rw [← String.toList_append, heq, String.toList_append]
    have hlen := congrArg List.length hchars
    rw [List.length_append, List.length_append] at hlen
    have hle := length_toString_le h
    obtain ⟨hname, hdigits⟩ | ⟨ds, hname, hdigits⟩ :
        name.toList = name'.toList ∧ (toString m).toList = (toString n).toList ∨
          ∃ ds, name.toList = name'.toList ++ ds ∧
            (toString n).toList = ds ++ (toString m).toList := by
      rcases List.append_eq_append_iff.mp hchars with ⟨ds, hname, hdigits⟩ | ⟨ds, hname, hdigits⟩
      · have hnil : ds = [] := by
          rw [hdigits, List.length_append] at hle
          exact List.length_eq_zero_iff.mp (by omega)
        rw [hnil] at hname hdigits
        exact .inl ⟨by simpa using hname.symm, hdigits⟩
      · exact .inr ⟨ds, hname, hdigits⟩
    · exact ⟨"", by rw [String.append_empty]; exact String.toList_injective hname,
        by rw [String.empty_append]; exact (String.toList_injective hdigits).symm⟩
    · refine ⟨String.ofList ds, String.toList_injective ?_, String.toList_injective ?_⟩
      · rw [String.toList_append, String.toList_ofList, hname]
      · rw [String.toList_append, String.toList_ofList, hdigits]
  · rintro ⟨digits, rfl, hn⟩
    rw [hn, String.append_assoc]

/-! ## 2. Names -/

/-- The number in the alias of a join is its place, counted from one. -/
theorem label_of_compile (h : q.compile schema policy = .ok c) {k : Nat} {entry : String × Join}
    (hk : c.ledger.joins.entries[k]? = some entry) :
    entry.2.label = entry.2.table ++ toString (k + 1) := by
  obtain ⟨-, -, p, hp, -, -, -, hledger⟩ := phases_of_compile h
  obtain ⟨-, more, hentries, -, hlabel⟩ :=
    hp.moves trace_extends (clauseSteps_extends _) Joins.wellFormed_empty
  obtain ⟨hsame, -⟩ := yields_compileJoins hp.joins
  have hall : c.ledger.joins.entries = more := by
    rw [hledger]
    show p.joined.joins.entries = more
    rw [hsame, hentries]
    rfl
  rw [hall] at hk
  have hplace := hlabel k entry hk
  rwa [show (Ledger.root c.query.table).aliasCount + k + 1 = k + 1 from by
    rw [Ledger.root, Nat.zero_add]] at hplace

end Sql

namespace CompiledQuery

open Sql

variable {policy : Policy} {schema : Schema} {q : Query} {c : CompiledQuery}

/-- The names that the relations of a statement have, the root first. -/
def relationNames (c : CompiledQuery) : List String :=
  c.label :: c.ledger.joins.entries.map (·.2.label)

/-- The table of the join at a place. -/
def joined? (c : CompiledQuery) (k : Nat) : Option String :=
  c.ledger.joins.entries[k]?.map (·.2.table)

/-- No table's name with a place behind it is the name of the root, or of another table with its
    own place. -/
structure NoClash (c : CompiledQuery) : Prop where
  root : ∀ k table, c.joined? k = some table → c.label ≠ table ++ toString (k + 1)
  /-- The digits that an earlier table's name has more are not those that the later place has
      more. -/
  joins : ∀ i k table digits, i < k → c.joined? i = some (table ++ digits) →
    c.joined? k = some table → toString (k + 1) ≠ digits ++ toString (i + 1)

/-- A name with a digit at its end. -/
def EndsInDigit (name : String) : Prop := ∃ d ∈ name.toList.getLast?, d.isDigit = true

theorem endsInDigit_append {name digits : String} (h : EndsInDigit digits) :
    EndsInDigit (name ++ digits) := by
  obtain ⟨d, hlast, hd⟩ := h
  refine ⟨d, ?_, hd⟩
  rw [String.toList_append, List.getLast?_append, Option.mem_def.mp hlast]
  rfl

theorem endsInDigit_toString (n : Nat) : EndsInDigit (toString n) := by
  have hchars : (toString n).toList = Nat.toDigits 10 n := Nat.toList_repr
  have hne : Nat.toDigits 10 n ≠ [] := List.ne_nil_of_length_pos Nat.length_toDigits_pos
  refine ⟨(Nat.toDigits 10 n).getLast hne, ?_, ?_⟩
  · rw [hchars, List.getLast?_eq_some_getLast hne]
    rfl
  · exact Nat.isDigit_of_mem_toDigits (by decide) (by decide) (List.getLast_mem hne)

/-- Nothing clashes if the names of the tables do not end in a digit. -/
theorem noClash_of_not_endsInDigit (hroot : ¬ EndsInDigit c.label)
    (hjoins : ∀ k table, c.joined? k = some table → ¬ EndsInDigit table) : c.NoClash where
  root k table _ h := hroot (h ▸ endsInDigit_append (endsInDigit_toString _))
  joins i k table digits hlt hi hk h := by
    have hdigits : digits.toList ≠ [] := by
      intro hnil
      have hsame : toString (k + 1) = toString (i + 1) := by
        rw [h, String.toList_eq_nil_iff.mp hnil, String.empty_append]
      have : k + 1 = i + 1 := Nat.repr_inj.mp hsame
      omega
    refine hjoins i _ hi (endsInDigit_append ⟨digits.toList.getLast hdigits, ?_, ?_⟩)
    · exact List.getLast?_eq_some_getLast hdigits
    · have hmem : digits.toList.getLast hdigits ∈ (toString (k + 1)).toList := by
        rw [h, String.toList_append]
        exact List.mem_append_left _ (List.getLast_mem hdigits)
      have hchars : (toString (k + 1)).toList = Nat.toDigits 10 (k + 1) := Nat.toList_repr
      rw [hchars] at hmem
      exact Nat.isDigit_of_mem_toDigits (by decide) (by decide) hmem

/-- The relations of a statement have different names exactly if no table's name with a place behind
    it clashes with another; and none does if the names do not end in a digit. -/
theorem nodup_relationNames_iff (h : q.compile schema policy = .ok c) :
    (c.relationNames.Nodup ↔ c.NoClash) ∧
      (¬ EndsInDigit c.label → (∀ k table, c.joined? k = some table → ¬ EndsInDigit table) →
        c.relationNames.Nodup) := by
  have hplace (k : Nat) : (c.ledger.joins.entries.map (·.2.label))[k]? =
      (c.joined? k).map (· ++ toString (k + 1)) := by
    rw [List.getElem?_map, joined?, Option.map_map]
    exact Option.map_congr fun entry hk => label_of_compile h hk
  have hclash : c.relationNames.Nodup ↔ c.NoClash := by
    rw [relationNames, List.nodup_cons, List.nodup_iff_getElem?_ne_getElem?]
    constructor
    · rintro ⟨hroot, hjoins⟩
      refine ⟨fun k table hk hlabel => hroot (List.mem_iff_getElem?.mpr ⟨k, ?_⟩),
        fun i k table digits hlt hi hk hdigits => ?_⟩
      · rw [hplace, hk, hlabel]
        rfl
      · have hsame : table ++ digits ++ toString (i + 1) = table ++ toString (k + 1) :=
          (eq_append_iff (by omega)).mpr ⟨digits, rfl, hdigits⟩
        have hk' := (hplace k).trans (congrArg (Option.map _) hk)
        refine hjoins i k hlt (List.getElem?_eq_some_iff.mp hk').1 ?_
        rw [hplace i, hi, hk', Option.map_some, hsame]
        rfl
    · intro hno
      refine ⟨fun hmem => ?_, fun i k hlt hk hsame => ?_⟩
      · obtain ⟨k, hk⟩ := List.mem_iff_getElem?.mp hmem
        obtain ⟨table, htable, hlabel⟩ := Option.map_eq_some_iff.mp ((hplace k).symm.trans hk)
        exact hno.root k table htable hlabel.symm
      · obtain ⟨table, htable, hlabel⟩ := Option.map_eq_some_iff.mp
          ((hplace k).symm.trans (List.getElem?_eq_getElem hk))
        obtain ⟨table', htable', hlabel'⟩ := Option.map_eq_some_iff.mp
          ((hplace i).symm.trans (hsame.trans (List.getElem?_eq_getElem hk)))
        obtain ⟨digits, rfl, hdigits⟩ :=
          (eq_append_iff (by omega)).mp (hlabel'.trans hlabel.symm)
        exact hno.joins i k table digits hlt htable' htable hdigits
  exact ⟨hclash, fun hroot hjoins => hclash.mpr (noClash_of_not_endsInDigit hroot hjoins)⟩

/-- Payees, and a table whose rows refer to one. -/
def withPayees (table : String) : Schema :=
  let id : Std.ExtTreeMap String Field := (∅ : Std.ExtTreeMap String Field).insert "id"
    ⟨.id, none, false, none⟩
  ⟨((∅ : Std.ExtTreeMap String Table).insert "payees" ⟨id⟩).insert table
    ⟨id.insert "payee" ⟨.id, some "payees", false, none⟩⟩⟩

/-- The payees of a table. -/
def payeesOf (table : String) : Query := { table, selection := [.string "payee"] }

/-- Whether a statement has these relations. -/
def hasRelations (names : List String) (c : CompiledQuery) : Bool := c.relationNames == names

/-- What is selected, as far as it can be computed. -/
theorem compileSelect_payeesOf (table : String) :
    compileSelect (payeesOf table) = Compile.within .select [.array [.string "payee"]] do
      let id ← Compile.within .expr [.string "$id"] (compileText "$id")
      let id ← column id "id"
      let payee ← Compile.within .expr [.string "$payee"] (compileText "$payee")
      let payee ← column payee "payee"
      return .intercalate ", " [id, payee] := by
  have hitems : selectItems (payeesOf table) = [.string "id", .string "payee"] := by
    simp [selectItems, payeesOf, Query.isAggregate, selectsId, containsAggregate]
  have hid : ¬ "id" = "*" := by decide
  have hpayee : ¬ "payee" = "*" := by decide
  unfold compileSelect
  rw [hitems]
  simp only [List.mapM_cons, List.mapM_nil, compileSelectItem, compileExpr_string, fieldReference,
    if_neg hid, if_neg hpayee, bind_assoc, pure_bind, List.flatten_cons, List.flatten_nil,
    List.cons_append, List.nil_append]
  rfl

theorem nodup_relationNames_of_transactions :
    ∃ c, (payeesOf "transactions").compile (withPayees "transactions") .none = .ok c ∧
      c.relationNames = ["transactions", "payees1"] ∧ c.NoClash := by
  obtain ⟨c, hc, hnames⟩ : ∃ c, (payeesOf "transactions").compile (withPayees "transactions")
      .none = .ok c ∧ hasRelations ["transactions", "payees1"] c = true := by
    refine compile_of_piecesPass (by cbv) ?_
    unfold piecesPass compilePieces
    rw [Policy.none, compileSelect_payeesOf, payeesOf, compileFilters_nil]
    decide +kernel
  have hrelations : c.relationNames = ["transactions", "payees1"] := eq_of_beq hnames
  refine ⟨c, hc, hrelations, (nodup_relationNames_iff hc).1.mp ?_⟩
  rw [hrelations]
  decide

/-- The first join of payees has the name of the table that is read. -/
theorem not_nodup_relationNames_of_payees1 :
    ∃ c, (payeesOf "payees1").compile (withPayees "payees1") .none = .ok c ∧
      ¬ c.relationNames.Nodup := by
  obtain ⟨c, hc, hnames⟩ : ∃ c, (payeesOf "payees1").compile (withPayees "payees1")
      .none = .ok c ∧ hasRelations ["payees1", "payees1"] c = true := by
    refine compile_of_piecesPass (by cbv) ?_
    unfold piecesPass compilePieces
    rw [Policy.none, compileSelect_payeesOf, payeesOf, compileFilters_nil]
    decide +kernel
  refine ⟨c, hc, ?_⟩
  rw [eq_of_beq hnames]
  decide

end CompiledQuery

end QuerySheet
