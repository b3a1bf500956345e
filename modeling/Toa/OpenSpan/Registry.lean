import Mathlib.Algebra.Group.Basic
import Mathlib.Algebra.Ring.Int.Defs
import Mathlib.Algebra.BigOperators.Group.List.Defs
import Mathlib.Order.Lattice
import Toa.Lib.Assoc
import Toa.Lib.Words

/-! The instruments of a process. An observation is held under a key made of the values of its
instrument's labels, and the labels a series is reported with are those of the observation that
came first under the key. -/

namespace Toa.OpenSpan
variable {α : Type*} (str : α → String)

def undeclared : String := "UNDECLARED"

/-- The own keys of the declaration, each with the values it admits, `none` where it admits any. -/
structure Labels where
  entries : List (String × Option (List String))
  nodup : (entries.map Prod.fst).Nodup

structure Warning where
  metric : String
  label : String
  value : String
deriving DecidableEq

/-- What an instrument keeps beside its points, with what it has written to the console. -/
structure Instrument where
  name : String
  labels : Labels
  reported : List Bool
  warnings : List Warning

def Instrument.new (name : String) (labels : Labels) : Instrument :=
  { name, labels, reported := labels.entries.map fun _ => false, warnings := [] }

abbrev Given (α : Type*) := String → Option α

/-- `UNDECLARED` where nothing is given, else `String(given)`. -/
def text (given : Option α) : String :=
  match given with
  | none => undeclared
  | some v => str v

def Instrument.value (ins : Instrument) (index : ℕ) (declared : String × Option (List String))
    (given : Option α) : String × Instrument :=
  let value := text str given
  match declared.2 with
  | none => (value, ins)
  | some admitted =>
    if value ∈ admitted then (value, ins)
    else if ins.reported[index]? = some false then
      (undeclared, { ins with
        reported := ins.reported.set index true
        warnings := ins.warnings ++ [⟨ins.name, declared.1, value⟩] })
    else (undeclared, ins)

def Instrument.key (ins : Instrument) (labels : Given α) : String × Instrument :=
  ins.labels.entries.zipIdx.foldl
    (fun held declared =>
      let read := held.2.value str declared.2 declared.1 (labels declared.1.1)
      (held.1 ++ read.1 ++ " ", read.2))
    ("", ins)

def Instrument.labelled (ins : Instrument) (labels : Given α) :
    List (String × String) × Instrument :=
  ins.labels.entries.zipIdx.foldl
    (fun held declared =>
      let read := held.2.value str declared.2 declared.1 (labels declared.1.1)
      (held.1 ++ [(declared.1.1, read.1)], read.2))
    ([], ins)

structure Point (β : Type*) where
  labels : List (String × String)
  value : β
deriving DecidableEq

/-- The point of the key becomes `more` of what it holds; where there is none it is made, and its
labels are built then. -/
def Instrument.hold {β : Type*} (ins : Instrument) (points : List (String × Point β))
    (labels : Given α) (new : β) (more : β → β) : Instrument × List (String × Point β) :=
  let key := ins.key str labels
  match points.lookup key.1 with
  | none =>
    let built := key.2.labelled str labels
    (built.2, points ++ [(key.1, ⟨built.1, new⟩)])
  | some point =>
    (key.2, Assoc.gather key.1 point (fun point => ⟨point.labels, more point.value⟩) points)

structure Distribution (N : Type*) where
  count : ℕ
  sum : N
  buckets : List ℕ
deriving DecidableEq

inductive SeriesType
  | counter
  | gauge
  | histogram
deriving DecidableEq

structure Series (N : Type*) where
  name : String
  type : SeriesType
  labels : List (String × String)
  unit : Option String
  value : Option N
  bounds : Option (List N)
  buckets : Option (List ℕ)
  count : Option ℕ
  sum : Option N
deriving DecidableEq

variable {N : Type*}

def Series.scalar (type : SeriesType) (name : String) (labels : List (String × String))
    (value : N) : Series N :=
  { name, type, labels, unit := none, value := some value, bounds := none, buckets := none,
    count := none, sum := none }

def Series.distribution (name : String) (bounds : List N) (unit : Option String)
    (labels : List (String × String)) (value : Distribution N) : Series N :=
  { name, type := .histogram, labels, unit, value := none, bounds := some bounds,
    buckets := some value.buckets, count := some value.count, sum := some value.sum }

structure Counter (N : Type*) where
  instrument : Instrument
  points : List (String × Point N)

namespace Counter

def new (name : String) (labels : Labels) : Counter N := ⟨.new name labels, []⟩

def add [Add N] [One N] (c : Counter N) (value : Option N) (labels : Given α) : Counter N :=
  let held := c.instrument.hold str c.points labels (value.getD 1) (· + value.getD 1)
  ⟨held.1, held.2⟩

def series (c : Counter N) : List (Series N) :=
  c.points.map fun entry => .scalar .counter c.instrument.name entry.2.labels entry.2.value

end Counter

structure Gauge (N : Type*) where
  instrument : Instrument
  points : List (String × Point N)

namespace Gauge

def new (name : String) (labels : Labels) : Gauge N := ⟨.new name labels, []⟩

def set (g : Gauge N) (value : N) (labels : Given α) : Gauge N :=
  let held := g.instrument.hold str g.points labels value fun _ => value
  ⟨held.1, held.2⟩

def add [Add N] (g : Gauge N) (delta : N) (labels : Given α) : Gauge N :=
  let held := g.instrument.hold str g.points labels delta (· + delta)
  ⟨held.1, held.2⟩

def series (g : Gauge N) : List (Series N) :=
  g.points.map fun entry => .scalar .gauge g.instrument.name entry.2.labels entry.2.value

end Gauge

structure Histogram (N : Type*) where
  instrument : Instrument
  bounds : List N
  unit : Option String
  points : List (String × Point (Distribution N))

namespace Histogram

def new (name : String) (buckets : List N) (unit : Option String) (labels : Labels) :
    Histogram N := ⟨.new name labels, buckets, unit, []⟩

def bucket [LE N] [DecidableLE N] (bounds : List N) (value : N) : ℕ :=
  bounds.findIdx fun bound => value ≤ bound

def recorded [Add N] [LE N] [DecidableLE N] (bounds : List N) (value : N) (d : Distribution N) :
    Distribution N :=
  { count := d.count + 1
    sum := d.sum + value
    buckets := d.buckets.modify (bucket bounds value) (· + 1) }

def record [Add N] [Zero N] [LE N] [DecidableLE N] (h : Histogram N) (value : N)
    (labels : Given α) : Histogram N :=
  let empty : Distribution N :=
    { count := 0, sum := 0, buckets := List.replicate (h.bounds.length + 1) 0 }
  let held := h.instrument.hold str h.points labels
    (recorded h.bounds value empty) (recorded h.bounds value)
  ⟨held.1, h.bounds, h.unit, held.2⟩

def series (h : Histogram N) : List (Series N) :=
  h.points.map fun entry =>
    .distribution h.instrument.name h.bounds h.unit entry.2.labels entry.2.value

end Histogram

/-! What an instrument is for: a reading for each tuple of label values. -/

def shown (admitted : Option (List String)) (given : Option α) : String :=
  match admitted with
  | none => text str given
  | some admitted => if text str given ∈ admitted then text str given else undeclared

def tuple (labels : Labels) (given : Given α) : List (String × String) :=
  labels.entries.map fun declared => (declared.1, shown str declared.2 (given declared.1))

def words (values : List (String × String)) : List (List Char) :=
  values.flatMap fun value => value.2.toList.splitOn ' '

/-- Series are tuples: observations of one key are those of one tuple, there is a series for every
tuple that was carried, and it reads what `expected` reads of the observations that carried it. -/
structure TupleSeries {τ : Type*} (key : τ → String) (tuple : τ → List (String × String))
    (expected : List (String × String) → List τ → Series N) (observed : List τ)
    (series : List (Series N)) : Prop where
  same : ∀ o ∈ observed, ∀ o' ∈ observed, key o = key o' ↔ tuple o = tuple o'
  distinct : (series.map Series.labels).Nodup
  carried : ∀ values, values ∈ series.map Series.labels ↔ values ∈ observed.map tuple
  held : ∀ s ∈ series, s = expected s.labels (observed.filter fun o => tuple o = s.labels)

/-- No two of the observations carry different tuples of the same words. -/
def Separate {τ : Type*} (tuple : τ → List (String × String)) (observed : List τ) : Prop :=
  ∀ o ∈ observed, ∀ o' ∈ observed, words (tuple o) = words (tuple o') → tuple o = tuple o'

namespace Instrument

theorem value_fst (ins : Instrument) (index : ℕ) (declared : String × Option (List String))
    (given : Option α) : (ins.value str index declared given).1 = shown str declared.2 given := by
  unfold value shown
  cases declared.2 with
  | none => rfl
  | some admitted =>
    simp only
    split_ifs <;> rfl

theorem value_labels (ins : Instrument) (index : ℕ) (declared : String × Option (List String))
    (given : Option α) : (ins.value str index declared given).2.labels = ins.labels := by
  unfold value
  cases declared.2 with
  | none => rfl
  | some admitted =>
    simp only
    split_ifs <;> rfl

theorem value_name (ins : Instrument) (index : ℕ) (declared : String × Option (List String))
    (given : Option α) : (ins.value str index declared given).2.name = ins.name := by
  unfold value
  cases declared.2 with
  | none => rfl
  | some admitted =>
    simp only
    split_ifs <;> rfl

theorem foldl_value {β : Type*} (next : β → String × Option (List String) → String → β)
    (labels : Given α) (declared : List (String × Option (List String))) (n : ℕ) (b : β)
    (ins : Instrument) :
    let loop := (declared.zipIdx n).foldl
      (fun (held : β × Instrument) d =>
        let read := held.2.value str d.2 d.1 (labels d.1.1)
        (next held.1 d.1 read.1, read.2))
      (b, ins)
    loop.1 = declared.foldl (fun b d => next b d (shown str d.2 (labels d.1))) b ∧
      loop.2.labels = ins.labels ∧ loop.2.name = ins.name := by
  induction declared generalizing n b ins with
  | nil => exact ⟨rfl, rfl, rfl⟩
  | cons d declared ih =>
    have hvalue := value_fst str ins n d (labels d.1)
    obtain ⟨h, hlabels, hname⟩ := ih (n + 1) (next b d (ins.value str n d (labels d.1)).1)
      (ins.value str n d (labels d.1)).2
    refine ⟨?_, hlabels.trans (value_labels str ..), hname.trans (value_name str ..)⟩
    rw [List.foldl_cons, ← hvalue]
    exact h

def flat (values : List (String × String)) : String :=
  values.foldl (fun key value => key ++ value.2 ++ " ") ""

theorem key_fst (ins : Instrument) (labels : Given α) :
    (ins.key str labels).1 = flat (tuple str ins.labels labels) := by
  unfold key flat tuple
  rw [List.foldl_map]
  exact (foldl_value str (fun key _ value => key ++ value ++ " ") labels ins.labels.entries 0 "" ins).1

theorem key_snd (ins : Instrument) (labels : Given α) :
    (ins.key str labels).2.labels = ins.labels ∧ (ins.key str labels).2.name = ins.name :=
  (foldl_value str (fun key _ value => key ++ value ++ " ") labels ins.labels.entries 0 "" ins).2

theorem labelled_fst (ins : Instrument) (labels : Given α) :
    (ins.labelled str labels).1 = tuple str ins.labels labels := by
  have h := foldl_value str (fun values d value => values ++ [(d.1, value)]) labels
    ins.labels.entries 0 [] ins
  have happend : ∀ (l : List (String × Option (List String))) (values : List (String × String)),
      l.foldl (fun values d => values ++ [(d.1, shown str d.2 (labels d.1))]) values =
        values ++ l.map fun d => (d.1, shown str d.2 (labels d.1)) := by
    intro l
    induction l with
    | nil => exact fun values => (List.append_nil values).symm
    | cons d l ih =>
      intro values
      rw [List.foldl_cons, ih, List.append_assoc, List.map_cons, List.singleton_append]
  rw [happend, List.nil_append] at h
  exact h.1

theorem labelled_snd (ins : Instrument) (labels : Given α) :
    (ins.labelled str labels).2.labels = ins.labels ∧
      (ins.labelled str labels).2.name = ins.name :=
  (foldl_value str (fun values d value => values ++ [(d.1, value)]) labels
    ins.labels.entries 0 [] ins).2

theorem toList_flat (values : List (String × String)) :
    (flat values).toList = (values.map fun value => value.2.toList).flatMap (· ++ [' ']) := by
  have h : ∀ key : String,
      (values.foldl (fun key value => key ++ value.2 ++ " ") key).toList =
        key.toList ++ (values.map fun value => value.2.toList).flatMap (· ++ [' ']) := by
    induction values with
    | nil => simp
    | cons value values ih =>
      intro key
      rw [List.foldl_cons, ih, List.map_cons, List.flatMap_cons, String.toList_append,
        String.toList_append]
      simp only [List.append_assoc]
      rfl
  exact h ""

theorem flat_inj_iff {values values' : List (String × String)} :
    flat values = flat values' ↔ words values = words values' := by
  rw [← String.toList_inj, toList_flat, toList_flat, Words.closed_inj_iff, List.flatMap_map,
    List.flatMap_map]
  exact Iff.rfl

theorem hold_snd {β : Type*} (ins : Instrument) (points : List (String × Point β))
    (labels : Given α) (new : β) (more : β → β) :
    (ins.hold str points labels new more).2 =
      Assoc.gather (flat (tuple str ins.labels labels)) ⟨tuple str ins.labels labels, new⟩
        (fun point => ⟨point.labels, more point.value⟩) points := by
  have hkey := key_fst str ins labels
  have hbuilt := labelled_fst str (ins.key str labels).2 labels
  rw [(key_snd str ins labels).1] at hbuilt
  unfold hold
  simp only [hkey, hbuilt]
  cases hpoint : points.lookup (flat (tuple str ins.labels labels)) with
  | none => exact (Assoc.gather_of_lookup_none hpoint _ _).symm
  | some point => exact Assoc.gather_congr_of_lookup hpoint _ _ _

theorem hold_fst {β : Type*} (ins : Instrument) (points : List (String × Point β))
    (labels : Given α) (new : β) (more : β → β) :
    (ins.hold str points labels new more).1.labels = ins.labels ∧
      (ins.hold str points labels new more).1.name = ins.name := by
  obtain ⟨hlabels, hname⟩ := key_snd str ins labels
  obtain ⟨hlabels', hname'⟩ := labelled_snd str (ins.key str labels).2 labels
  unfold hold
  simp only
  cases points.lookup (ins.key str labels).1 with
  | none => exact ⟨hlabels'.trans hlabels, hname'.trans hname⟩
  | some point => exact ⟨hlabels, hname⟩

end Instrument

section Sweep
variable {τ β : Type*}

def sweep (tuple : τ → List (String × String)) (new : τ → β) (more : τ → β → β)
    (observed : List τ) : List (String × Point β) :=
  observed.foldl (fun points o => Assoc.gather (Instrument.flat (tuple o)) ⟨tuple o, new o⟩
    (fun point => ⟨point.labels, more o point.value⟩) points) []

variable {tuple : τ → List (String × String)} {new : τ → β} {more : τ → β → β}
  {reading : List τ → β} {observed : List τ}

theorem foldl_point (os : List τ) (b : β) (values : List (String × String)) :
    os.foldl (fun held t => some (held.elim (Point.mk (tuple t) (new t))
        fun point => ⟨point.labels, more t point.value⟩)) (some ⟨values, b⟩) =
      (os.foldl (fun held t => some (held.elim (new t) (more t))) (some b)).map (Point.mk values) := by
  induction os generalizing b with
  | nil => rfl
  | cons o' os ih => exact ih (more o' b)

variable (hone : ∀ o, reading [o] = new o)
  (hmore : ∀ os o, os ≠ [] → reading (os ++ [o]) = more o (reading os))
include hone hmore

theorem lookup_sweep (key : String) :
    (sweep tuple new more observed).lookup key =
      match observed.filter fun o => Instrument.flat (tuple o) = key with
      | [] => none
      | o :: os => some ⟨tuple o, reading (o :: os)⟩ := by
  unfold sweep
  rw [Assoc.lookup_foldl_gather]
  cases hos : observed.filter fun o => Instrument.flat (tuple o) = key with
  | nil => rfl
  | cons o os =>
    have hread := Assoc.foldl_some_elim hone hmore (List.cons_ne_nil o os)
    rw [List.foldl_cons] at hread ⊢
    have hpoint := @foldl_point _ _ tuple new more os (new o) (tuple o)
    exact hpoint.trans (congrArg (Option.map (Point.mk (tuple o))) hread)

theorem mem_sweep {entry : String × Point β} (h : entry ∈ sweep tuple new more observed) :
    ∃ o ∈ observed, entry.1 = Instrument.flat (tuple o) ∧ entry.2.labels = tuple o ∧
      entry.2.value = reading (observed.filter fun o' =>
        Instrument.flat (tuple o') = Instrument.flat (tuple o)) := by
  have hnodup : ((sweep tuple new more observed).map Prod.fst).Nodup :=
    Assoc.nodup_foldl_gather observed List.nodup_nil
  have hlookup := Assoc.lookup_of_mem hnodup h
  rw [lookup_sweep hone hmore] at hlookup
  cases hos : observed.filter fun o => Instrument.flat (tuple o) = entry.1 with
  | nil =>
    rw [hos] at hlookup
    cases hlookup
  | cons o os =>
    rw [hos] at hlookup
    have hmem : o ∈ observed.filter fun o => Instrument.flat (tuple o) = entry.1 :=
      hos ▸ List.mem_cons_self
    obtain ⟨ho, hkey⟩ := List.mem_filter.mp hmem
    have hkey : Instrument.flat (tuple o) = entry.1 := of_decide_eq_true hkey
    have hpoint := Option.some.inj hlookup
    exact ⟨o, ho, hkey.symm, by rw [← hpoint], by rw [← hpoint, hkey, hos]⟩

theorem sweep_mem {o : τ} (ho : o ∈ observed) :
    ∃ point, (Instrument.flat (tuple o), point) ∈ sweep tuple new more observed := by
  have hlookup := @lookup_sweep _ _ tuple new more reading observed hone hmore
    (Instrument.flat (tuple o))
  cases hos : observed.filter fun o' => Instrument.flat (tuple o') = Instrument.flat (tuple o) with
  | nil =>
    have hmem : o ∈ observed.filter fun o' => Instrument.flat (tuple o') = Instrument.flat (tuple o) :=
      List.mem_filter.mpr ⟨ho, decide_eq_true rfl⟩
    rw [hos] at hmem
    cases hmem
  | cons o' os =>
    rw [hos] at hlookup
    exact ⟨_, Assoc.mem_of_lookup hlookup⟩

theorem tupleSeries_sweep_iff {key : τ → String}
    (hkey : ∀ o, key o = Instrument.flat (tuple o))
    {series : List (String × String) → β → Series N}
    (hseries : ∀ values b, (series values b).labels = values) :
    TupleSeries key tuple (fun values os => series values (reading os)) observed
        ((sweep tuple new more observed).map fun entry => series entry.2.labels entry.2.value) ↔
      Separate tuple observed := by
  constructor
  · intro h o ho o' ho' hwords
    have hflat := Instrument.flat_inj_iff.mpr hwords
    exact (h.same o ho o' ho').mp (by rw [hkey, hkey, hflat])
  intro h
  have hinj : ∀ o ∈ observed, ∀ o' ∈ observed,
      Instrument.flat (tuple o) = Instrument.flat (tuple o') ↔ tuple o = tuple o' :=
    fun o ho o' ho' => ⟨fun hflat => h o ho o' ho' (Instrument.flat_inj_iff.mp hflat),
      congrArg Instrument.flat⟩
  have hlabels : ((sweep tuple new more observed).map fun entry =>
      series entry.2.labels entry.2.value).map Series.labels =
      (sweep tuple new more observed).map fun entry => entry.2.labels := by
    rw [List.map_map]
    exact List.map_congr_left fun entry _ => hseries entry.2.labels entry.2.value
  refine ⟨?same, ?distinct, ?carried, ?held⟩
  case same =>
    intro o ho o' ho'
    rw [hkey, hkey]
    exact hinj o ho o' ho'
  case distinct =>
    -- points of one tuple would be of one key
    have hnodup : ((sweep tuple new more observed).map Prod.fst).Nodup :=
      Assoc.nodup_foldl_gather observed List.nodup_nil
    rw [hlabels]
    refine (List.nodup_map_iff_inj_on (List.Nodup.of_map _ hnodup)).mpr ?_
    intro entry hentry entry' hentry' heq
    obtain ⟨o, ho, hfst, hvalues, -⟩ := mem_sweep hone hmore hentry
    obtain ⟨o', ho', hfst', hvalues', -⟩ := mem_sweep hone hmore hentry'
    have htuple : tuple o = tuple o' := hvalues.symm.trans (heq.trans hvalues')
    have hsame : entry.1 = entry'.1 := by rw [hfst, hfst', htuple]
    exact List.inj_on_of_nodup_map hnodup hentry hentry' hsame
  case carried =>
    intro values
    rw [hlabels, List.mem_map, List.mem_map]
    constructor
    · rintro ⟨entry, hentry, rfl⟩
      obtain ⟨o, ho, -, hvalues, -⟩ := mem_sweep hone hmore hentry
      exact ⟨o, ho, hvalues.symm⟩
    · rintro ⟨o, ho, rfl⟩
      obtain ⟨point, hpoint⟩ := @sweep_mem _ _ tuple new more reading observed hone hmore o ho
      obtain ⟨o', ho', hfst, hvalues, -⟩ := mem_sweep hone hmore hpoint
      exact ⟨_, hpoint, hvalues.trans ((hinj o ho o' ho').mp hfst).symm⟩
  case held =>
    intro s hs
    obtain ⟨entry, hentry, rfl⟩ := List.mem_map.mp hs
    obtain ⟨o, ho, -, hvalues, hvalue⟩ := mem_sweep hone hmore hentry
    have hfilter : (observed.filter fun o' =>
        Instrument.flat (tuple o') = Instrument.flat (tuple o)) =
        observed.filter fun o' => tuple o' = tuple o :=
      List.filter_congr fun o' ho' => decide_eq_decide.mpr (hinj o' ho' o ho)
    rw [hvalue, hseries, hvalues, hfilter]

end Sweep

theorem foldl_hold {σ τ β : Type*} {act : σ → τ → σ} {instrument : σ → Instrument}
    {points : σ → List (String × Point β)} {given : τ → Given α} {new : τ → β} {more : τ → β → β}
    {I : σ → Prop} (hI : ∀ s o, I s → I (act s o))
    (hact : ∀ s o, I s → (instrument (act s o), points (act s o)) =
      (instrument s).hold str (points s) (given o) (new o) (more o))
    (observed : List τ) {s : σ} (hs : I s) :
    I (observed.foldl act s) ∧ (instrument (observed.foldl act s)).name = (instrument s).name ∧
      points (observed.foldl act s) = observed.foldl (fun points o =>
        Assoc.gather (Instrument.flat (tuple str (instrument s).labels (given o)))
          ⟨tuple str (instrument s).labels (given o), new o⟩
          (fun point => ⟨point.labels, more o point.value⟩) points) (points s) := by
  induction observed generalizing s with
  | nil => exact ⟨hs, rfl, rfl⟩
  | cons o observed ih =>
    have hstep := hact s o hs
    have hins : instrument (act s o) = _ := congrArg Prod.fst hstep
    have hpoints : points (act s o) = _ := congrArg Prod.snd hstep
    have hfst := Instrument.hold_fst str (instrument s) (points s) (given o) (new o) (more o)
    rw [← hins] at hfst
    rw [Instrument.hold_snd] at hpoints
    obtain ⟨hinv, hname, hrest⟩ := ih (hI s o hs)
    refine ⟨hinv, hname.trans hfst.2, ?_⟩
    rw [List.foldl_cons, List.foldl_cons, hrest, hfst.1, hpoints]

section Counted
variable [AddMonoid N] [One N]

abbrev Added (N α : Type*) := Option N × Given α

def Counter.run (name : String) (labels : Labels) (observed : List (Added N α)) : Counter N :=
  observed.foldl (fun c o => c.add str o.1 o.2) (.new name labels)

def Counter.total (os : List (Added N α)) : N := (os.map fun o => o.1.getD 1).sum

theorem Counter.series_iff (name : String) (labels : Labels) (observed : List (Added N α)) :
    TupleSeries (fun o => ((Instrument.new name labels).key str o.2).1)
        (fun o => tuple str labels o.2)
        (fun values os => .scalar .counter name values (Counter.total os)) observed
        (Counter.run str name labels observed).series ↔
      Separate (fun o => tuple str labels o.2) observed := by
  have hrun := @foldl_hold α str (Counter N) (Added N α) N (fun c o => c.add str o.1 o.2)
    Counter.instrument Counter.points Prod.snd (fun o => o.1.getD 1) (fun o v => v + o.1.getD 1)
    (fun _ => True) (fun _ _ _ => trivial) (fun _ _ _ => rfl) observed (.new name labels) trivial
  obtain ⟨-, hname, hpoints⟩ := hrun
  have hone : ∀ o : Added N α, Counter.total [o] = o.1.getD 1 := fun o => List.sum_singleton
  have hmore : ∀ (os : List (Added N α)) (o : Added N α), os ≠ [] →
      Counter.total (os ++ [o]) = Counter.total os + o.1.getD 1 := by
    intro os o _
    unfold Counter.total
    rw [List.map_append, List.sum_append]
    exact congrArg _ (hone o)
  have hseries : (Counter.run str name labels observed).series =
      (sweep (fun o : Added N α => tuple str labels o.2) (fun o => o.1.getD 1)
        (fun o v => v + o.1.getD 1) observed).map fun entry =>
          .scalar .counter name entry.2.labels entry.2.value := by
    unfold Counter.series Counter.run
    rw [hname, hpoints]
    rfl
  rw [hseries]
  exact tupleSeries_sweep_iff hone hmore (fun o => Instrument.key_fst str _ o.2) fun _ _ => rfl

inductive Move (N α : Type*)
  | set (value : N) (labels : Given α)
  | add (delta : N) (labels : Given α)

def Move.labels : Move N α → Given α
  | set _ labels => labels
  | add _ labels => labels

def Move.level : Move N α → N → N
  | set value _ => fun _ => value
  | add delta _ => fun level => level + delta

def Gauge.move (g : Gauge N) : Move N α → Gauge N
  | .set value labels => g.set str value labels
  | .add delta labels => g.add str delta labels

def Gauge.run (name : String) (labels : Labels) (observed : List (Move N α)) : Gauge N :=
  observed.foldl (Gauge.move str) (.new name labels)

/-- Where moves lead from nothing: the last value that was set, and what was added since. -/
def Gauge.level (os : List (Move N α)) : N := os.foldl (fun level o => o.level level) 0

omit [One N] in
theorem Gauge.series_iff (name : String) (labels : Labels) (observed : List (Move N α)) :
    TupleSeries (fun o => ((Instrument.new name labels).key str o.labels).1)
        (fun o => tuple str labels o.labels)
        (fun values os => .scalar .gauge name values (Gauge.level os)) observed
        (Gauge.run str name labels observed).series ↔
      Separate (fun o => tuple str labels o.labels) observed := by
  have hact : ∀ (g : Gauge N) (o : Move N α), True →
      ((g.move str o).instrument, (g.move str o).points) =
        g.instrument.hold str g.points o.labels (o.level 0) o.level := by
    intro g o _
    cases o with
    | set value labels => rfl
    | add delta labels =>
      have hnew : (Move.add delta labels).level 0 = delta := zero_add delta
      rw [hnew]
      rfl
  have hrun := @foldl_hold α str (Gauge N) (Move N α) N (Gauge.move str)
    Gauge.instrument Gauge.points Move.labels (fun o => o.level 0) Move.level
    (fun _ => True) (fun _ _ _ => trivial) hact observed (.new name labels) trivial
  obtain ⟨-, hname, hpoints⟩ := hrun
  have hone : ∀ o : Move N α, Gauge.level [o] = o.level 0 := fun _ => rfl
  have hmore : ∀ (os : List (Move N α)) (o : Move N α), os ≠ [] →
      Gauge.level (os ++ [o]) = o.level (Gauge.level os) := by
    intro os o _
    unfold Gauge.level
    rw [List.foldl_append]
    rfl
  have hseries : (Gauge.run str name labels observed).series =
      (sweep (fun o : Move N α => tuple str labels o.labels) (fun o => o.level 0) Move.level
        observed).map fun entry => .scalar .gauge name entry.2.labels entry.2.value := by
    unfold Gauge.series Gauge.run
    rw [hname, hpoints]
    rfl
  rw [hseries]
  exact tupleSeries_sweep_iff hone hmore (fun o => Instrument.key_fst str _ o.labels) fun _ _ => rfl

variable [LinearOrder N]

def InBucket (bounds : List N) : ℕ → N → Prop
  | 0, value => ∀ bound ∈ bounds[0]?, value ≤ bound
  | i + 1, value => (∀ bound ∈ bounds[i]?, bound < value) ∧ ∀ bound ∈ bounds[i + 1]?, value ≤ bound

instance (bounds : List N) : ∀ i value, Decidable (InBucket bounds i value)
  | 0, value => inferInstanceAs (Decidable (∀ bound ∈ bounds[0]?, value ≤ bound))
  | i + 1, value => inferInstanceAs (Decidable
      ((∀ bound ∈ bounds[i]?, bound < value) ∧ ∀ bound ∈ bounds[i + 1]?, value ≤ bound))

omit [AddMonoid N] [One N] in
theorem Histogram.bucket_eq_iff {bounds : List N} (hbounds : bounds.Pairwise (· ≤ ·)) {i : ℕ}
    (hi : i ≤ bounds.length) (value : N) :
    Histogram.bucket bounds value = i ↔ InBucket bounds i value := by
  induction bounds generalizing i with
  | nil =>
    have hzero : i = 0 := Nat.le_zero.mp hi
    subst hzero
    simp [Histogram.bucket, InBucket]
  | cons bound bounds ih =>
    obtain ⟨hle, hrest⟩ := List.pairwise_cons.mp hbounds
    have hcons : Histogram.bucket (bound :: bounds) value =
        if value ≤ bound then 0 else Histogram.bucket bounds value + 1 := by
      simp [Histogram.bucket, List.findIdx_cons]
    cases i with
    | zero =>
      rw [hcons]
      simp [InBucket]
    | succ i =>
      have hi : i ≤ bounds.length := Nat.le_of_succ_le_succ hi
      by_cases hvalue : value ≤ bound
      · -- the bound before the bucket is not below what the first bound is not
        rw [hcons, if_pos hvalue]
        refine iff_of_false (Nat.succ_ne_zero i).symm fun h => ?_
        obtain ⟨b, hb⟩ : ∃ b, (bound :: bounds)[i]? = some b :=
          Option.isSome_iff_exists.mp (by simp; omega)
        have hlt : b < value := h.1 b hb
        have hbound : bound ≤ b := by
          rcases List.mem_cons.mp (List.mem_of_getElem? hb) with rfl | hmem
          · exact le_rfl
          · exact hle b hmem
        exact absurd (hbound.trans_lt hlt) (not_lt.mpr hvalue)
      · have hlt : bound < value := not_le.mp hvalue
        rw [hcons, if_neg hvalue, Nat.succ_inj, ih hrest hi]
        cases i with
        | zero => simp [InBucket, hlt]
        | succ i => exact Iff.rfl

abbrev Recorded (N α : Type*) := N × Given α

def Histogram.run (name : String) (bounds : List N) (unit : Option String) (labels : Labels)
    (observed : List (Recorded N α)) : Histogram N :=
  observed.foldl (fun h o => h.record str o.1 o.2) (.new name bounds unit labels)

def Histogram.distribution (bounds : List N) (os : List (Recorded N α)) : Distribution N :=
  { count := os.length
    sum := (os.map Prod.fst).sum
    buckets := (List.range (bounds.length + 1)).map fun i =>
      os.countP fun o => InBucket bounds i o.1 }

omit [One N] in
theorem Histogram.distribution_append {bounds : List N} (hbounds : bounds.Pairwise (· ≤ ·))
    (os : List (Recorded N α)) (o : Recorded N α) :
    Histogram.distribution bounds (os ++ [o]) =
      Histogram.recorded bounds o.1 (Histogram.distribution bounds os) := by
  have hsum : ((os ++ [o]).map Prod.fst).sum = (os.map Prod.fst).sum + o.1 := by
    rw [List.map_append, List.sum_append]
    exact congrArg _ List.sum_singleton
  have hbuckets : ((List.range (bounds.length + 1)).map fun i =>
      (os ++ [o]).countP fun o => InBucket bounds i o.1) =
      ((List.range (bounds.length + 1)).map fun i => os.countP fun o => InBucket bounds i o.1).modify
        (Histogram.bucket bounds o.1) (· + 1) := by
    refine List.ext_getElem (by simp) fun i h _ => ?_
    have hi : i ≤ bounds.length := by simpa [Nat.lt_succ_iff] using h
    have hbucket := Histogram.bucket_eq_iff hbounds hi o.1
    simp only [List.getElem_map, List.getElem_range, List.getElem_modify, List.countP_append,
      List.countP_singleton, decide_eq_true_eq, ← hbucket]
    split_ifs <;> rfl
  unfold Histogram.distribution Histogram.recorded
  rw [hsum, hbuckets, List.length_append]
  rfl

omit [One N] in
theorem Histogram.series_iff (name : String) {bounds : List N} (hbounds : bounds.Pairwise (· ≤ ·))
    (unit : Option String) (labels : Labels) (observed : List (Recorded N α)) :
    TupleSeries (fun o => ((Instrument.new name labels).key str o.2).1)
        (fun o => tuple str labels o.2)
        (fun values os => .distribution name bounds unit values (Histogram.distribution bounds os))
        observed (Histogram.run str name bounds unit labels observed).series ↔
      Separate (fun o => tuple str labels o.2) observed := by
  have hempty : Histogram.distribution bounds ([] : List (Recorded N α)) =
      { count := 0, sum := 0, buckets := List.replicate (bounds.length + 1) 0 } := by
    unfold Histogram.distribution
    rw [List.map_nil, List.sum_nil, List.length_nil]
    simp
  have hone : ∀ o : Recorded N α, Histogram.distribution bounds [o] = Histogram.recorded bounds o.1
      { count := 0, sum := 0, buckets := List.replicate (bounds.length + 1) 0 } := fun o =>
    hempty ▸ Histogram.distribution_append hbounds [] o
  have hmore : ∀ (os : List (Recorded N α)) (o : Recorded N α), os ≠ [] →
      Histogram.distribution bounds (os ++ [o]) =
        Histogram.recorded bounds o.1 (Histogram.distribution bounds os) :=
    fun os o _ => Histogram.distribution_append hbounds os o
  have hact : ∀ (h : Histogram N) (o : Recorded N α), h.bounds = bounds ∧ h.unit = unit →
      ((h.record str o.1 o.2).instrument, (h.record str o.1 o.2).points) =
        h.instrument.hold str h.points o.2 (Histogram.recorded bounds o.1
          { count := 0, sum := 0, buckets := List.replicate (bounds.length + 1) 0 })
          (Histogram.recorded bounds o.1) := by
    rintro h o ⟨rfl, -⟩
    rfl
  have hrun := @foldl_hold α str (Histogram N) (Recorded N α) (Distribution N)
    (fun h o => h.record str o.1 o.2) Histogram.instrument Histogram.points Prod.snd
    (fun o => Histogram.recorded bounds o.1
      { count := 0, sum := 0, buckets := List.replicate (bounds.length + 1) 0 })
    (fun o => Histogram.recorded bounds o.1)
    (fun h => h.bounds = bounds ∧ h.unit = unit) (fun _ _ h => h) hact observed
    (.new name bounds unit labels) ⟨rfl, rfl⟩
  obtain ⟨⟨hrunBounds, hunit⟩, hname, hpoints⟩ := hrun
  have hseries : (Histogram.run str name bounds unit labels observed).series =
      (sweep (fun o : Recorded N α => tuple str labels o.2)
        (fun o => Histogram.recorded bounds o.1
          { count := 0, sum := 0, buckets := List.replicate (bounds.length + 1) 0 })
        (fun o => Histogram.recorded bounds o.1) observed).map fun entry =>
          .distribution name bounds unit entry.2.labels entry.2.value := by
    unfold Histogram.series Histogram.run
    rw [hname, hpoints, hrunBounds, hunit]
    rfl
  rw [hseries]
  exact tupleSeries_sweep_iff hone hmore (fun o => Instrument.key_fst str _ o.2) fun _ _ => rfl

/-- An instrument's series are its label tuples for exactly the observations that are separate. -/
theorem series_are_tuples_iff (name : String) (labels : Labels) :
    (∀ observed : List (Added N α),
      TupleSeries (fun o => ((Instrument.new name labels).key str o.2).1)
          (fun o => tuple str labels o.2)
          (fun values os => .scalar .counter name values (Counter.total os)) observed
          (Counter.run str name labels observed).series ↔
        Separate (fun o => tuple str labels o.2) observed) ∧
    (∀ observed : List (Move N α),
      TupleSeries (fun o => ((Instrument.new name labels).key str o.labels).1)
          (fun o => tuple str labels o.labels)
          (fun values os => .scalar .gauge name values (Gauge.level os)) observed
          (Gauge.run str name labels observed).series ↔
        Separate (fun o => tuple str labels o.labels) observed) ∧
    ∀ (bounds : List N) (unit : Option String) (observed : List (Recorded N α)),
      bounds.Pairwise (· ≤ ·) →
      (TupleSeries (fun o => ((Instrument.new name labels).key str o.2).1)
          (fun o => tuple str labels o.2)
          (fun values os =>
            .distribution name bounds unit values (Histogram.distribution bounds os))
          observed (Histogram.run str name bounds unit labels observed).series ↔
        Separate (fun o => tuple str labels o.2) observed) :=
  ⟨Counter.series_iff str name labels, Gauge.series_iff str name labels,
    fun _ unit observed hbounds => Histogram.series_iff str name hbounds unit labels observed⟩

end Counted

theorem nodup_routed : ["route", "method"].Nodup := by decide

def routed : Labels := ⟨[("route", none), ("method", none)], nodup_routed⟩

def requested (route method : String) : Given String
  | "route" => some route
  | "method" => some method
  | _ => none

theorem series_are_tuples_routed :
    TupleSeries (fun o => ((Instrument.new "duration" routed).key id o.2).1)
      (fun o => tuple id routed o.2)
      (fun values os => .distribution "duration" [(1 : ℤ), 10] (some "ms") values
        (Histogram.distribution [1, 10] os))
      [((5 : ℤ), requested "/dummies" "GET"), (50, requested "/dummies" "GET")]
      (Histogram.run id "duration" [1, 10] (some "ms") routed
        [((5 : ℤ), requested "/dummies" "GET"), (50, requested "/dummies" "GET")]).series := by
  have hbounds : [(1 : ℤ), 10].Pairwise (· ≤ ·) := by decide
  refine ((series_are_tuples_iff id "duration" routed).2.2 _ _ _ hbounds).mpr ?_
  intro o ho o' ho' _
  simp only [List.mem_cons, List.not_mem_nil, or_false] at ho ho'
  obtain rfl | rfl := ho <;> obtain rfl | rfl := ho' <;> rfl

/-- What is told apart by where a space stands is one series. -/
theorem series_not_tuples :
    ¬ TupleSeries (fun o => ((Instrument.new "requests" routed).key id o.2).1)
        (fun o => tuple id routed o.2)
        (fun values os => .scalar .counter "requests" values (Counter.total os))
        [((none : Option ℤ), requested "a b" "c"), (none, requested "a" "b c")]
        (Counter.run id "requests" routed
          [((none : Option ℤ), requested "a b" "c"), (none, requested "a" "b c")]).series := by
  intro h
  have hseparate := (Counter.series_iff id "requests" routed _).mp h
  have hsame := hseparate _ List.mem_cons_self _ (List.mem_cons_of_mem _ List.mem_cons_self)
    (by decide)
  exact absurd hsame (by decide)

end Toa.OpenSpan
