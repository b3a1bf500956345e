import Mathlib.Data.Prod.Lex
import Mathlib.Order.OrderDual
import Toa.Lib.LastWriter
import Toa.Lib.Run
import Toa.Storage.Collection

/-! Regions of one component, each with a collection of its own: local writes, and deliveries of
the records other regions committed. What a region holds under an id is a last-writer register
over what it has written and been delivered, so two regions can only end apart where two records
of one id carry the same version and the same rank. -/

namespace Toa.Convergence
open Storage LastWriter Run OrderDual

universe u v
variable {ι : Type u} {J : Type v} [DecidableEq ι]

/-- `published` is what every region committed, in the order it was committed; a delivery is of a
record by its place there. -/
structure Regions (ι : Type u) (J : Type v) where
  collections : ι → Collection J
  published : List (ι × Document J)
  delivered : List (ι × ℕ)

inductive Act (ι : Type u) (J : Type v)
  | store (r : ι) (e : Entity J) (value : Record J) (now : ℤ)
  | massStore (r : ι) (values : List (Entity J × Record J)) (now : ℤ)
  | upsert (r : ι) (query : Query J) (found : String) (changeset : Changeset J) (now : ℤ)
  | deliver (r : ι) (n : ℕ)

namespace Regions

def init (c : Collection J) : Regions ι J := ⟨fun _ => c, [], []⟩

/-- The collection a write of region `r` left, and the documents it committed, published. -/
def commit (s : Regions ι J) (r : ι) (c : Collection J) (ds : List (Document J)) : Regions ι J where
  collections := Function.update s.collections r c
  published := s.published ++ ds.map (r, ·)
  delivered := s.delivered

def deliver (s : Regions ι J) (r : ι) (n : ℕ) (d : Document J) : Regions ι J where
  collections := Function.update s.collections r (converge (s.collections r) d)
  published := s.published
  delivered := (r, n) :: s.delivered

/-- Region `o` published `d`, as the `n`-th of all. -/
def Published (s : Regions ι J) (n : ℕ) (o : ι) (d : Document J) : Prop :=
  s.published[n]? = some (o, d)

def Drained (s : Regions ι J) : Prop :=
  ∀ n o d, s.Published n o d → ∀ r, r ≠ o → (r, n) ∈ s.delivered

end Regions

section
variable (codec : Codec J) (declaration : Declaration J) (rank : ι → ℕ)

def step (s : Regions ι J) : Act ι J → Option (Regions ι J)
  | .store r e value now =>
    match e.set declaration (rank r) now value with
    | .error _ => none
    | .ok m => (store codec (s.collections r) m).map fun c => s.commit r c [document codec m]
  | .massStore r values now =>
    match values.mapM fun (e, value) => e.set declaration (rank r) now value with
    | .error _ => none
    | .ok ms => (massStore codec (s.collections r) ms).map fun (c, ds) => s.commit r c ds
  | .upsert r query found changeset now =>
    match upsert codec (s.collections r) query found (changeset.set now) with
    | none => none
    | some (c, _) => (c found).map fun d => s.commit r c [d]
  | .deliver r n =>
    match s.published[n]? with
    | none => none
    | some (o, d) => if r = o then none else some (s.deliver r n d)

/-- An assignment is of a record this region wrote last, or names this region itself. -/
def Regional (s : Regions ι J) : Act ι J → Prop
  | .upsert r _ found changeset _ =>
    ∀ stored, s.collections r found = some stored →
      changeset.REGION.or stored.REGION = some (rank r)
  | _ => True

end

/-! ## The rule of the merge as an order -/

def key (d : Document J) : ℕ ×ₗ ℕᵒᵈ := toLex (d.VERSION, toDual (d.REGION.getD FIRST))

theorem key_lt_of_VERSION_lt {d e : Document J} (h : d.VERSION < e.VERSION) : key d < key e :=
  Prod.Lex.toLex_lt_toLex.mpr (.inl h)

theorem VERSION_le_of_key_le {d e : Document J} (h : key d ≤ key e) : d.VERSION ≤ e.VERSION := by
  rcases Prod.Lex.toLex_le_toLex.mp h with h | h
  · exact h.le
  · exact h.1.le

theorem key_eq_iff {d e : Document J} :
    key d = key e ↔ d.VERSION = e.VERSION ∧ d.REGION.getD FIRST = e.REGION.getD FIRST := by
  simp only [key, toLex_inj, Prod.mk.injEq, toDual_inj]

theorem supersedes_iff {stored d : Document J} {rank : ℕ} (h : d.REGION = some rank) :
    supersedes stored d = true ↔ key stored < key d := by
  simp only [supersedes, h, key, Prod.Lex.toLex_lt_toLex, Option.all_some, Option.getD_some,
    Bool.or_eq_true, Bool.and_eq_true, decide_eq_true_eq, toDual_lt_toDual]

/-- `converge` of a record that names its region is the register's merge. -/
theorem converge_find {c : Collection J} {d : Document J} {rank : ℕ} (h : d.REGION = some rank)
    (id : String) :
    converge c d id = if id = d.id then merge key (c d.id) d else c id := by
  unfold converge
  by_cases hid : id = d.id
  · subst hid
    rw [if_pos rfl]
    cases hc : c d.id with
    | none => simp only [Collection.put_self, merge]
    | some stored =>
      simp only [merge]
      by_cases hs : key stored < key d
      · rw [if_pos ((supersedes_iff h).mpr hs), if_pos hs, Collection.put_self]
      · rw [if_neg (fun hp => hs ((supersedes_iff h).mp hp)), if_neg hs, hc]
  · rw [if_neg hid]
    cases c d.id with
    | none => exact c.put_of_ne hid
    | some stored =>
      dsimp only
      split_ifs
      · exact c.put_of_ne hid
      · rfl

end Toa.Convergence
