import QuerySheet.Proofs.Sql.Spelling

/-!
# Where running sums stand

Only a running sum is written with `OVER`, and only behind the `OVER` of one do orders and rows
stand, in a group of their own.

* `Phrase.Regular`: the phrases of which this is true;
* `regular_of_spells`: all phrases of expressions, conditions and orders are regular.
-/

namespace QuerySheet.Sql

/-- It stands in running sums only. -/
def Gap.isWindow : Gap → Bool
  | .over | .blank => true
  | .arguments | .items | .conjunction | .all | .any | .quotient | .gte | .lte | .gt | .lt | .equal
  | .like | .among => false

namespace Phrase

/-- The rows and the orders of running sums stand in their place, and nowhere else. -/
inductive Regular : Phrase → Prop
  | digits (d : Digits) : Regular (.digits d)
  | null : Regular .null
  | number (n : Number) : Regular (.number n)
  | literal (s : String) : Regular (.literal s)
  | hole (ref : ParamRef) : Regular (.hole ref)
  | column (label name : Ident) : Regular (.column label name)
  | call {φ : Phrase} (f : Routine) (h : Regular φ) : Regular (.call f φ)
  | group {φ : Phrase} (h : Regular φ) : Regular (.group φ)
  | condition {φ : Phrase} (h : Regular φ) : Regular (.condition φ)
  | minus {φ : Phrase} (h : Regular φ) : Regular (.minus φ)
  | beside {φ ψ : Phrase} {gap : Gap} (hgap : gap.isWindow = false) (hφ : Regular φ)
      (hψ : Regular ψ) : Regular (.beside φ gap ψ)
  | after {φ : Phrase} (tail : Tail) (h : Regular φ) : Regular (.after φ tail)
  | orNull {φ ψ : Phrase} (hφ : Regular φ) (hψ : Regular ψ) : Regular (.orNull φ ψ)
  | runningSum {φ : Phrase} (h : Regular φ) : Regular (.runningSum φ .rows)
  | runningSumBy {φ ω : Phrase} (h : Regular φ) (hω : Regular ω) :
      Regular (.runningSum φ (.beside (.orderBy ω) .blank .rows))

variable {φ φ' ψ χ : Phrase} {φs : List Phrase}

theorem regular_join {gap : Gap} (hgap : gap.isWindow = false) (h : ∀ φ ∈ φs, φ.Regular) :
    (join gap φs).Regular := by
  induction φs with
  | nil => exact .digits _
  | cons φ φs ih =>
    cases φs with
    | nil => exact h φ List.mem_cons_self
    | cons ψ rest =>
      exact .beside hgap (h φ List.mem_cons_self) (ih fun χ hχ => h χ (List.mem_cons_of_mem _ hχ))

theorem regular_all (h : ∀ φ ∈ φs, φ.Regular) : (all φs).Regular := by
  unfold all
  split
  · exact .digits _
  · exact .group (regular_join rfl h)

theorem regular_any (h : ∀ φ ∈ φs, φ.Regular) : (any φs).Regular := by
  unfold any
  split
  · exact .digits _
  · exact .group (regular_join rfl h)

theorem regular_conjunction (h : ∀ φ ∈ φs, φ.Regular) : (conjunction φs).Regular := by
  unfold conjunction
  split
  · exact .condition (.digits _)
  · exact .condition (regular_join rfl h)

end Phrase

variable {φ φ' ψ χ : Phrase} {φs : List Phrase} {orders : List Json}

open Phrase (Regular regular_join)

theorem Leaf.regular {e : Json} (h : Leaf e φ) : φ.Regular := by
  cases h <;> constructor

theorem Recast.regular (h : Recast φ φ') (hφ : φ.Regular) : φ'.Regular := by
  cases h with
  | same => exact hφ
  | date | shorten | never => exact .digits _
  | leading d =>
    refine .call _ (.after _ (.call _ (regular_join rfl ?_)))
    simp [hφ, Regular.digits]

theorem Applies.regular {f : Function} (h : Applies f φs φ) (hφs : ∀ φ ∈ φs, φ.Regular) :
    φ.Regular := by
  cases h with
  | routine φ => exact .call _ (hφs φ List.mem_cons_self)
  | substr => exact .call _ (regular_join rfl hφs)
  | @neg φ => exact .group (.minus (hφs φ List.mem_cons_self))
  | idiv φ ψ =>
    exact .group (.beside rfl (hφs φ List.mem_cons_self)
      (hφs ψ (List.mem_cons_of_mem _ List.mem_cons_self)))
  | part | literal => exact hφs φ List.mem_cons_self
  | @nocase φ => exact .after _ (hφs φ List.mem_cons_self)

theorem Compares.regular {op : Operator} {value : Json} (h : Compares op value φ ψ χ)
    (hφ : φ.Regular) (hψ : ψ.Regular) : χ.Regular := by
  cases h with
  | @sign _ gap _ _ _ _ h hcast =>
    refine .beside ?_ hφ (hcast.regular hψ)
    cases op <;> cases h <;> rfl
  | like hcast hcast' => exact .beside rfl (hcast.regular hφ) (hcast'.regular hψ)
  | isNull => exact .after _ hφ
  | orNull _ _ hcast => exact .orNull hφ (hcast.regular hψ)
  | equal _ _ hcast => exact .beside rfl hφ (hcast.regular hψ)

theorem Directs.regular (h : Directs φ φ') (hφ : φ.Regular) : φ'.Regular := by
  cases h with
  | none => exact hφ
  | asc | desc => exact .after _ hφ

/-- Phrases of an origin are regular; the rows of a running sum are behind one. -/
def Origin.Regular : Origin → Phrase → Prop
  | .rows, ρ => ∀ φ : Phrase, φ.Regular → (Phrase.runningSum φ ρ).Regular
  | .part _, φ | .order _, φ | .orders _, φ => φ.Regular

theorem regular_of_spells {origin : Origin} (h : Spells orders origin φs) :
    ∀ φ ∈ φs, origin.Regular φ := by
  induction h with
  | leaf h => exact List.forall_mem_singleton.mpr h.regular
  | pass _ _ ih => exact ih
  | condition _ _ ih => exact List.forall_mem_singleton.mpr (Phrase.regular_conjunction ih)
  | call _ _ h ih => exact List.forall_mem_singleton.mpr (h.regular ih)
  | running _ _ _ ihargs ihrows =>
    rw [List.forall_mem_singleton] at ihargs ihrows ⊢
    exact ihrows _ ihargs
  | noArguments | noTests | noTest | noOps | noElements | noOrders =>
    exact fun _ h => absurd h List.not_mem_nil
  | arguments _ h _ ihv ihrest | elements _ h _ ihv ihrest =>
    exact List.forall_mem_cons.mpr ⟨h.regular (ihv _ List.mem_cons_self), ihrest⟩
  | tests _ _ ihv ihrest => exact List.forall_mem_append.mpr ⟨ihv, ihrest⟩
  | all _ _ ih => exact List.forall_mem_singleton.mpr (Phrase.regular_all ih)
  | any _ _ ih => exact List.forall_mem_singleton.mpr (Phrase.regular_any ih)
  | ops _ _ ihop ihrest => exact List.forall_mem_cons.mpr ⟨ihop _ List.mem_cons_self, ihrest⟩
  | comparison _ _ h ihleft ihvalue =>
    exact List.forall_mem_singleton.mpr
      (h.regular (ihleft _ List.mem_cons_self) (ihvalue _ List.mem_cons_self))
  | never => exact List.forall_mem_singleton.mpr (.digits _)
  | among _ _ _ _ _ ihleft _ ihitems =>
    exact List.forall_mem_singleton.mpr
      (.beside rfl (ihleft _ List.mem_cons_self) (.group (regular_join rfl ihitems)))
  | allRows => exact List.forall_mem_singleton.mpr fun _ hφ => .runningSum hφ
  | rows _ ih =>
    exact List.forall_mem_singleton.mpr fun _ hφ => .runningSumBy hφ (regular_join rfl ih)
  | order _ _ h ih => exact List.forall_mem_singleton.mpr (h.regular (ih _ List.mem_cons_self))
  | orders _ _ ihe ihes => exact List.forall_mem_cons.mpr ⟨ihe _ List.mem_cons_self, ihes⟩

end QuerySheet.Sql
