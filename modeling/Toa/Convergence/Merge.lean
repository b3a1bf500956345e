import Mathlib.Data.Prod.Lex
import Mathlib.Order.OrderDual
import Toa.Lib.LastWriter
import Toa.Storage.Collection

/-! The deliveries of one id, one after another: what `converge` answers of each, and that what it
leaves is the latest of what was stored and what was delivered, in whatever order and however
many times. A record that names no region is written as `null` where it is compared, which every
rank is greater than, and is read as the first region where it is stored: it is a register whose
key depends on whether a document was delivered or was there before. -/

namespace Toa.Convergence.Merge
open Storage LastWriter OrderDual

universe u
variable {J : Type u}

/-- A record some region committed, which is what it is delivered as. -/
structure Delivery (J : Type u) extends Record J where
  version_pos : 0 < VERSION

structure UpdateResult where
  upsertedCount : ℕ
  modifiedCount : ℕ

section
variable (codec : Codec J)

/-- `to(record)` -/
def written (record : Delivery J) : Document J where
  toRecord := codec.toDocument record.toRecord
  version_pos := record.version_pos

/-- `$replaceWith`. An upsert runs it over `{ _id }`, whose version reads as `0`, and a record is of
a greater one. -/
def replaceWith (root : Option (Document J)) (d : Document J) : Document J :=
  match root with
  | none => d
  | some stored => if supersedes stored d then d else stored

def updateOne [DecidableEq (Document J)] (c : Collection J) (d : Document J) :
    Collection J × UpdateResult :=
  match c d.id with
  | none => (c.put (replaceWith none d), ⟨1, 0⟩)
  | some stored =>
    let left := replaceWith (some stored) d
    (c.put left, ⟨0, if left = stored then 0 else 1⟩)

def converge [DecidableEq (Document J)] (c : Collection J) (record : Delivery J) :
    Collection J × Bool :=
  let (c', result) := updateOne c (written codec record)
  (c', result.upsertedCount == 1 || result.modifiedCount == 1)

def deliver [DecidableEq (Document J)] (c : Collection J) : List (Delivery J) → Collection J
  | [] => c
  | record :: records => deliver (converge codec c record).1 records

def arriving (records : List (Delivery J)) : Set (Document J) :=
  { d | ∃ record ∈ records, written codec record = d }

/-- What was stored under the id before the deliveries, and what they are of. -/
def seen (c : Collection J) (id : String) (records : List (Delivery J)) : Set (Document J) :=
  { d | c id = some d ∨ d ∈ arriving codec records }

end

/-- Ascending by version, and then descending by region, where none is the first. -/
def Precedes (d e : Document J) : Prop :=
  d.VERSION < e.VERSION ∨ (d.VERSION = e.VERSION ∧ e.REGION.getD FIRST ≤ d.REGION.getD FIRST)

/-- `left` is the greatest of `all`, and nothing is left of nothing. -/
def Maximum (all : Set (Document J)) : Option (Document J) → Prop
  | none => all = ∅
  | some d => d ∈ all ∧ ∀ e ∈ all, Precedes e d

/-! ## The rule as a key -/

section
open Classical

def place : Option ℕ → ℕ
  | none => 0
  | some rank => rank + 1

/-- Between a document that was there and one of its version and region that is delivered: the one
that was there is kept where it names its region, and is replaced where it does not. -/
noncomputable def turn (arriving : Set (Document J)) (d : Document J) : ℕ :=
  if d ∈ arriving then 1 else if d.REGION = none then 0 else 2

noncomputable def key (arriving : Set (Document J)) (d : Document J) : ℕ ×ₗ ℕᵒᵈ ×ₗ ℕ :=
  toLex (d.VERSION, toLex (toDual (place d.REGION), turn arriving d))

end

theorem place_inj {a b : Option ℕ} : place a = place b ↔ a = b := by
  cases a <;> cases b <;> simp [place]

theorem key_lt_iff {arriving : Set (Document J)} {d e : Document J} :
    key arriving d < key arriving e ↔ d.VERSION < e.VERSION ∨ (d.VERSION = e.VERSION ∧
      (place e.REGION < place d.REGION ∨
        (d.REGION = e.REGION ∧ turn arriving d < turn arriving e))) := by
  simp only [key, Prod.Lex.toLex_lt_toLex, toDual_lt_toDual, toDual_inj, place_inj]

theorem precedes_of_key_le {arriving : Set (Document J)} {d e : Document J}
    (h : key arriving d ≤ key arriving e) : Precedes d e := by
  simp only [key, Prod.Lex.toLex_le_toLex] at h
  rcases h with hv | ⟨hv, hr⟩
  · exact .inl hv
  · refine .inr ⟨hv, ?_⟩
    have hplace : place e.REGION ≤ place d.REGION := by
      rcases hr with hr | ⟨hr, -⟩
      · exact (toDual_lt_toDual.mp hr).le
      · exact (toDual_inj.mp hr).ge
    revert hplace
    cases d.REGION <;> cases e.REGION <;> simp [place, FIRST]

theorem replaceWith_eq_merge {arriving : Set (Document J)} {held : Option (Document J)}
    {d : Document J} (hd : d ∈ arriving)
    (hone : ∀ e ∈ arriving, e.VERSION = d.VERSION → e.REGION = d.REGION → e = d) :
    some (replaceWith held d) = merge (key arriving) held d := by
  cases held with
  | none => rfl
  | some stored =>
    have hturn : turn arriving d = 1 := if_pos hd
    by_cases hsame : stored = d
    · subst hsame
      simp only [replaceWith, merge, ite_self]
    · have hheld : stored.VERSION = d.VERSION → stored.REGION = d.REGION →
          turn arriving stored = if d.REGION = none then 0 else 2 := by
        intro hv hr
        have hnot : stored ∉ arriving := fun h => hsame (hone stored h hv hr)
        rw [turn, if_neg hnot, hr]
      have hiff : supersedes stored d = true ↔ key arriving stored < key arriving d := by
        rw [key_lt_iff, hturn]
        simp only [supersedes, Bool.or_eq_true, Bool.and_eq_true, decide_eq_true_eq]
        refine or_congr_right (and_congr_right fun hv => ?_)
        cases hr : d.REGION with
        | none =>
          cases hs : stored.REGION with
          | none =>
            rw [hheld hv (hs.trans hr.symm), hr]
            simp
          | some t => simp [place]
        | some r =>
          cases hs : stored.REGION with
          | none => simp [place, FIRST]
          | some t =>
            simp only [Option.all_some, Option.getD_some, decide_eq_true_eq, place,
              Nat.add_lt_add_iff_right, Option.some.injEq]
            refine (or_iff_left ?_).symm
            rintro ⟨ht, hlt⟩
            rw [hheld hv (by rw [hs, hr, ht]), hr] at hlt
            simp at hlt
      simp only [replaceWith, merge, hiff]
      split_ifs <;> rfl

theorem key_injOn {arriving : Set (Document J)} {stored : Option (Document J)}
    (hone : ∀ d ∈ arriving, ∀ e ∈ arriving, d.VERSION = e.VERSION → d.REGION = e.REGION → d = e) :
    Set.InjOn (key arriving) { d | stored = some d ∨ d ∈ arriving } := by
  have hturn : ∀ d e, d ∈ arriving → e ∉ arriving → turn arriving d ≠ turn arriving e := by
    intro d e hd he
    unfold turn
    rw [if_pos hd, if_neg he]
    split_ifs <;> decide
  intro d hd e he hkey
  simp only [key, toLex_inj, Prod.mk.injEq, toDual_inj, place_inj] at hkey
  obtain ⟨hv, hr, ht⟩ := hkey
  by_cases hd' : d ∈ arriving <;> by_cases he' : e ∈ arriving
  · exact hone d hd' e he' hv hr
  · exact absurd ht (hturn d e hd' he')
  · exact absurd ht.symm (hturn e d he' hd')
  · exact Option.some.inj ((hd.resolve_right hd').symm.trans (he.resolve_right he'))

theorem latest_stored (arriving : Set (Document J)) (c : Collection J) (id : String) :
    Latest (key arriving) { d | c id = some d } (c id) := by
  cases hc : c id with
  | none => exact Set.eq_empty_of_forall_notMem fun d hd => nomatch (hd : none = some d)
  | some stored =>
    refine ⟨rfl, fun e he => ?_⟩
    exact (Option.some.inj (he : some stored = some e)) ▸ le_rfl

theorem maximum_of_latest {arriving all : Set (Document J)} {left : Option (Document J)}
    (h : Latest (key arriving) all left) : Maximum all left := by
  cases left with
  | none => exact h
  | some d => exact ⟨h.mem, fun e he => precedes_of_key_le (h.le he)⟩

/-! ## One delivery -/

section
variable [DecidableEq (Document J)] {codec : Codec J}

theorem converge_find (c : Collection J) (record : Delivery J) :
    (converge codec c record).1 record.id =
      some (replaceWith (c record.id) (written codec record)) := by
  change (updateOne c (written codec record)).1 (written codec record).id = _
  change _ = some (replaceWith (c (written codec record).id) (written codec record))
  unfold updateOne
  cases hc : c (written codec record).id with
  | none => exact Collection.put_self _ _
  | some stored =>
    have hid : (replaceWith (some stored) (written codec record)).id =
        (written codec record).id := by
      unfold replaceWith
      dsimp only
      split_ifs
      · rfl
      · exact c.keyed _ stored hc
    exact hid ▸ Collection.put_self c (replaceWith (some stored) (written codec record))

theorem converge_answer_iff (c : Collection J) (record : Delivery J) :
    (converge codec c record).2 = true ↔
      (converge codec c record).1 record.id ≠ c record.id := by
  rw [converge_find]
  change ((updateOne c (written codec record)).2.upsertedCount == 1 ||
    (updateOne c (written codec record)).2.modifiedCount == 1) = true ↔ _
  change _ ↔ some (replaceWith (c (written codec record).id) _) ≠ c (written codec record).id
  unfold updateOne
  cases hc : c (written codec record).id with
  | none => simp
  | some stored =>
    simp only [ne_eq, Option.some.injEq]
    split_ifs with hleft <;> simp [hleft]

/-! ## A sequence of deliveries -/

theorem deliver_append (c : Collection J) (earlier later : List (Delivery J)) :
    deliver codec c (earlier ++ later) = deliver codec (deliver codec c earlier) later := by
  induction earlier generalizing c with
  | nil => rfl
  | cons record records ih => exact ih (converge codec c record).1

/-- The run lemma of the register, over deliveries that are all of `arriving`. -/
theorem latest_deliver {arriving : Set (Document J)} {id : String}
    (hone : ∀ d ∈ arriving, ∀ e ∈ arriving, d.VERSION = e.VERSION → d.REGION = e.REGION → d = e)
    {records : List (Delivery J)} (hid : ∀ record ∈ records, record.id = id)
    (harriving : ∀ record ∈ records, written codec record ∈ arriving) {c : Collection J}
    {before : Set (Document J)} (h : Latest (key arriving) before (c id)) :
    Latest (key arriving) { d | d ∈ before ∨ ∃ record ∈ records, written codec record = d }
      (deliver codec c records id) := by
  induction records generalizing c before with
  | nil => simpa [deliver] using h
  | cons record records ih =>
    have hrecord : record.id = id := hid record (List.mem_cons_self ..)
    have hd := harriving record (List.mem_cons_self ..)
    have hfind : (converge codec c record).1 id = merge (key arriving) (c id)
        (written codec record) := by
      rw [← replaceWith_eq_merge hd fun e he => hone e he _ hd, ← hrecord]
      exact converge_find c record
    have hstep := h.merge (written codec record)
    rw [← hfind] at hstep
    have hrest := ih (fun r hr => hid r (List.mem_cons_of_mem _ hr))
      (fun r hr => harriving r (List.mem_cons_of_mem _ hr)) hstep
    have hset : { d | d ∈ before ∨ ∃ r ∈ record :: records, written codec r = d } =
        { d | d ∈ insert (written codec record) before ∨ ∃ r ∈ records, written codec r = d } := by
      ext d
      simp only [Set.mem_ofPred_eq, Set.mem_insert_iff, List.mem_cons, exists_eq_or_imp]
      rw [eq_comm (a := written codec record), or_left_comm, or_assoc]
    rw [hset]
    exact hrest

theorem converge_join {c : Collection J} {id : String} {records : List (Delivery J)}
    (hid : ∀ record ∈ records, record.id = id)
    (hone : ∀ record ∈ records, ∀ other ∈ records,
      record.VERSION = other.VERSION → record.REGION = other.REGION → record = other) :
    Maximum (seen codec c id records) (deliver codec c records id) ∧
      (∀ again : List (Delivery J), (∀ record, record ∈ again ↔ record ∈ records) →
        deliver codec c again id = deliver codec c records id) ∧
      ∀ earlier record later, records = earlier ++ record :: later →
        ((converge codec (deliver codec c earlier) record).2 = true ↔
          deliver codec c (earlier ++ [record]) id ≠ deliver codec c earlier id) := by
  have hdocuments : ∀ d ∈ arriving codec records, ∀ e ∈ arriving codec records,
      d.VERSION = e.VERSION → d.REGION = e.REGION → d = e := by
    rintro _ ⟨r, hr, rfl⟩ _ ⟨r', hr', rfl⟩ hv hreg
    rw [hone r hr r' hr' hv hreg]
  have hlatest : ∀ again : List (Delivery J), (∀ record, record ∈ again ↔ record ∈ records) →
      Latest (key (arriving codec records)) (seen codec c id records) (deliver codec c again id) := by
    intro again hmem
    have hrun := latest_deliver hdocuments (fun r hr => hid r ((hmem r).mp hr))
      (fun r hr => ⟨r, (hmem r).mp hr, rfl⟩) (latest_stored _ c id)
    have hset : { d | d ∈ { d | c id = some d } ∨ ∃ r ∈ again, written codec r = d } =
        seen codec c id records := by
      ext d
      simp only [hmem]
      rfl
    rwa [hset] at hrun
  have hself := hlatest records fun _ => Iff.rfl
  refine ⟨maximum_of_latest hself, fun again hmem => ?_, fun earlier record later heq => ?_⟩
  · exact (hlatest again hmem).unique (key_injOn hdocuments) hself
  · have hrecord : record.id = id := hid record (by simp [heq])
    rw [converge_answer_iff, deliver_append, hrecord]
    rfl

end

/-! ## Two regions -/

/-- The first write of a record, in region `rank`. -/
def first (rank : ℕ) (p : ℤ) : Delivery ℤ where
  toRecord := { note p with VERSION := 1, REGION := some rank }
  version_pos := Nat.one_pos

open Classical in
theorem converge_join_tied :
    deliver .plain .empty [first 1 2, first 0 1, first 1 2] "k" =
        deliver .plain .empty [first 0 1, first 1 2] "k" ∧
      (deliver .plain .empty [first 0 1, first 1 2] "k").map (·.REGION) = some (some 0) := by
  have hone : ∀ record ∈ [first 0 1, first 1 2], ∀ other ∈ [first 0 1, first 1 2],
      record.VERSION = other.VERSION → record.REGION = other.REGION → record = other := by
    simp [first]
  have hid : ∀ record ∈ [first 0 1, first 1 2], record.id = "k" := by simp [first, note]
  obtain ⟨hmax, hagain, -⟩ := @converge_join ℤ _ .plain .empty "k" _ hid hone
  refine ⟨hagain _ (by simp [or_comm]), ?_⟩
  cases hleft : deliver .plain .empty [first 0 1, first 1 2] "k" with
  | none =>
    rw [hleft] at hmax
    have hmem : written .plain (first 0 1) ∈
        seen .plain .empty "k" [first 0 1, first 1 2] := .inr ⟨_, List.mem_cons_self .., rfl⟩
    exact absurd hmem (by rw [show seen _ _ _ _ = ∅ from hmax]; exact Set.notMem_empty _)
  | some d =>
    rw [hleft] at hmax
    have hlt := hmax.2 _ (.inr ⟨_, List.mem_cons_self .., rfl⟩)
    rcases hmax.1 with h | ⟨r, hr, rfl⟩
    · exact nomatch h
    · simp only [List.mem_cons, List.not_mem_nil, or_false] at hr
      rcases hr with rfl | rfl
      · rfl
      · exact absurd hlt (by unfold Precedes; decide)

end Toa.Convergence.Merge
