import Mathlib.Data.List.Dedup
import Mathlib.Data.List.Perm.Basic
import Mathlib.Order.Defs.LinearOrder
import Mathlib.Order.Lattice

/-! The rows of one component's outbox in the MongoDB storage. -/

namespace Toa.Outbox

def SEPARATOR : Char := Char.ofNat 0

structure Name where
  spell : String
  free : SEPARATOR ∉ spell.toList
deriving DecidableEq

def EVENTS : Name := ⟨"events", by decide⟩

variable {ι : Type*}

/-- A row as it is stored. One written before destinations existed has no `outstanding`. -/
structure Document (ι : Type*) where
  id : ι
  lane : ℕ
  published : Bool
  pending : ℕ
  outstanding : Option (List Name)
  publishedAt : Option ℕ

structure Row (ι : Type*) where
  id : ι
  lane : ℕ
  published : Bool
  pending : ℕ
  outstanding : List Name

def toDocument (row : Row ι) : Document ι where
  id := row.id
  lane := row.lane
  published := row.published
  pending := row.pending
  outstanding := some row.outstanding
  publishedAt := none

namespace Document

def names (doc : Document ι) : List Name := doc.outstanding.getD [EVENTS]

end Document

def fromDocument (doc : Document ι) : Row ι where
  id := doc.id
  lane := doc.lane
  published := doc.published
  pending := doc.pending
  outstanding := doc.names

/-- What `settle` makes of one of the rows it was given the id of. -/
def settled (destinations : List Name) (now : ℕ) (doc : Document ι) : Document ι :=
  let outstanding := doc.names.dedup.filter (· ∉ destinations)
  { doc with
    outstanding := some outstanding
    published := outstanding.isEmpty
    publishedAt := if outstanding.isEmpty then some now else doc.publishedAt }

theorem mem_settled_names {destinations : List Name} {now : ℕ} {doc : Document ι} {d : Name} :
    d ∈ (settled destinations now doc).names ↔ d ∈ doc.names ∧ d ∉ destinations := by
  simp [settled, Document.names]

section
variable [LinearOrder ι]

def criteria (lanes : List ℕ) (now : ℕ) (after : Option ι) (doc : Document ι) : Bool :=
  doc.lane ∈ lanes && !doc.published && decide (doc.pending ≤ now) && after.all (· < doc.id)

def ascending (a b : Document ι) : Bool := a.id ≤ b.id

def pending (rows : List (Document ι)) (lanes : List ℕ) (now limit : ℕ) (after : Option ι) :
    List (Row ι) :=
  (((rows.filter (criteria lanes now after)).mergeSort ascending).take limit).map fromDocument

theorem mem_pending_or {rows : List (Document ι)} (hrows : (rows.map (·.id)).Nodup)
    {doc : Document ι} (hdoc : doc ∈ rows) {lanes : List ℕ} {now : ℕ} {after : Option ι}
    (hcriteria : criteria lanes now after doc = true) (limit : ℕ) :
    fromDocument doc ∈ pending rows lanes now limit after ∨
      (pending rows lanes now limit after).length = limit ∧
        ∀ row ∈ pending rows lanes now limit after, row.id < doc.id := by
  let sorted := (rows.filter (criteria lanes now after)).mergeSort ascending
  have hle : sorted.Pairwise fun a b => a.id ≤ b.id := by
    refine (List.pairwise_mergeSort (fun a b c hab hbc => ?_) (fun a b => ?_) _).imp
      of_decide_eq_true
    · exact decide_eq_true (le_trans (of_decide_eq_true hab) (of_decide_eq_true hbc))
    · simpa only [ascending, Bool.or_eq_true, decide_eq_true_eq] using le_total a.id b.id
  have hne : sorted.Pairwise fun a b => a.id ≠ b.id := by
    have hperm := (List.mergeSort_perm (rows.filter (criteria lanes now after)) ascending).map (·.id)
    exact List.pairwise_map.mp (hperm.nodup_iff.mpr (hrows.sublist (List.filter_sublist.map _)))
  have hmem : doc ∈ sorted := List.mem_mergeSort.mpr (List.mem_filter.mpr ⟨hdoc, hcriteria⟩)
  rw [← List.take_append_drop limit sorted] at hmem hle hne
  rcases List.mem_append.mp hmem with htake | hdrop
  · exact .inl (List.mem_map_of_mem htake)
  · refine .inr ⟨?_, fun row hrow => ?_⟩
    · have hlength : limit ≤ sorted.length := by
        by_contra h
        rw [List.drop_eq_nil_of_le (by omega)] at hdrop
        exact nomatch hdrop
      rw [pending, List.length_map, List.length_take, Nat.min_eq_left hlength]
    · obtain ⟨earlier, hearlier, rfl⟩ := List.mem_map.mp hrow
      exact lt_of_le_of_ne ((List.pairwise_append.mp hle).2.2 _ hearlier _ hdrop)
        ((List.pairwise_append.mp hne).2.2 _ hearlier _ hdrop)

end
end Toa.Outbox
