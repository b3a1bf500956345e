import Mathlib.Data.List.Nodup
import Mathlib.Data.List.Perm.Subperm
import Mathlib.Order.Nat
import Toa.Storage.Entity

/-! What an operation over one entry and one over a set of them acquire of an associated entity,
which exists by virtue of its id: an id nothing is found under is a blank. A set is read without
its deleted records, and an entry of an id is read with them. -/

namespace Toa.Storage.Entries

universe u
variable {J : Type u}

/-- The documents of a collection, in the order a query reads them. -/
structure Documents (J : Type u) where
  all : List (Document J)
  distinct : (all.map (·.id)).Nodup

/-- A query a storage is given, less its order and projection. `omit` and `limit` are none where
they are `0`. -/
structure Query (J : Type u) where
  id : Option String
  ids : Option (List String)
  version : Option ℕ
  criteria : Option (Document J → Bool)
  search : Option (Document J → Bool)
  skip : ℕ
  limit : ℕ
  deleted : Bool

/-- `translate(query).criteria`, where `ids` takes the place of `id`. -/
def Query.selects (q : Query J) (d : Document J) : Bool :=
  q.criteria.all (· d) &&
    (match q.ids with
      | some ids => ids.contains d.id
      | none => q.id.all (· = d.id)) &&
    q.version.all (· = d.VERSION) && q.search.all (· d)

/-- `{ skip, limit }` -/
def Query.page (q : Query J) (ds : List (Document J)) : List (Document J) :=
  if q.limit = 0 then ds.drop q.skip else (ds.drop q.skip).take q.limit

section
variable (codec : Codec J) (c : Documents J)

/-- A record read by its id is read where it is deleted, too. -/
def get (q : Query J) : Option (Record J) :=
  let matched := c.all.filter fun d =>
    q.selects d && (q.id.isSome || q.deleted || d.DELETED.isNone)
  (q.page matched).head?.map fun d => codec.fromDocument d.toRecord

def find (q : Query J) : List (Record J) :=
  let matched := c.all.filter fun d => q.selects d && (q.deleted || d.DELETED.isNone)
  (q.page matched).map fun d => codec.fromDocument d.toRecord

structure Factory (J : Type u) where
  region : ℕ
  now : ℤ
  blank : String → Value J

namespace Factory

def init (f : Factory J) (id : String) : Entity J := Entity.init f.region f.now f.blank id

def object (f : Factory J) (record : Record J) (mutable : Bool) : Entity J :=
  Entity.object f.region f.now record mutable

/-- Each blank is put before the set. -/
def objects (f : Factory J) (recordset : List (Record J)) (init : List String) (mutable : Bool) :
    List (Entity J) :=
  init.foldl (fun set id => f.init id :: set) (recordset.map (f.object · mutable))

end Factory

variable (f : Factory J) (associated : Bool)

/-- Scope `entry`. An error is a version that is not the record's. -/
def entry (q : Query J) (mutable : Bool) : Except Unit (Option (Entity J)) :=
  match get codec c q with
  | some record => .ok (some (f.object record mutable))
  | none =>
    match associated, q.id, q.criteria, q.version with
    | true, some id, none, none => .ok (some (f.init id))
    | _, _, _, some _ => .error ()
    | _, _, _, none => .ok none

/-- Scope `entries` -/
def entries (q : Query J) (mutable : Bool) : List (Entity J) :=
  let recordset := find codec c q
  let missing := match associated, q.ids with
    | true, some ids =>
      if recordset.length < ids.length then
        ids.filter fun id => !recordset.any (·.id = id)
      else []
    | _, _ => []
  f.objects recordset missing mutable

def Blank (e : Entity J) : Prop := e.state.VERSION = 0

def Query.one (q : Query J) (id : String) : Query J := { q with ids := none, id := some id }

/-- A set agrees with the entries of its ids: an id is in it once, and is a blank in it only where
it is one as an entry, so never where a live record is stored under it. -/
def Agrees (q : Query J) (mutable : Bool) : Prop :=
  ((entries codec c f associated q mutable).map (·.state.id)).Nodup ∧
    ∀ e ∈ entries codec c f associated q mutable, Blank e →
      (∃ blank, entry codec c f associated (q.one e.state.id) mutable = .ok (some blank) ∧
        Blank blank) ∧
      ∀ d ∈ c.all, d.id = e.state.id → d.DELETED ≠ none

def Query.read (q : Query J) : List (Document J) :=
  q.page (c.all.filter fun d => q.selects d && (q.deleted || d.DELETED.isNone))

/-- An id may be left unread where it is given once, the query has neither criteria nor a version, and no
record of it is live; nor is there a deleted one that its search selects, unless the query omits it. -/
structure Vacant (q : Query J) (ids : List String) (id : String) : Prop where
  once : ids.count id ≤ 1
  criteria : q.criteria = none
  version : q.version = none
  live : ∀ d ∈ c.all, d.id = id → d.DELETED ≠ none
  deleted : q.skip = 0 → ∀ d ∈ c.all, d.id = id → q.search.all (· d) = false

end

section
variable {codec : Codec J} {c : Documents J} {f : Factory J}

def missing (c : Documents J) (q : Query J) (ids : List String) : List String :=
  ids.filter fun id => !(q.read c).any (·.id = id)

end

/-! ## A live record that criteria leave out -/

def alive : Document ℤ where
  toRecord := { note 1 with id := "a", VERSION := 1 }
  version_pos := Nat.one_pos

def stored : Documents ℤ := ⟨[alive], by decide⟩

def narrowed : Query ℤ :=
  ⟨none, some ["a"], none, some fun d => d.properties "p" = .json 2, none, 0, 0, false⟩

end Toa.Storage.Entries
