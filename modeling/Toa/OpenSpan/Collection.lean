import Toa.Lib.Fallible
import Toa.Lib.Json
import Toa.OpenSpan.Registry

/-! Collections of a registry, and the request each is posted as. -/

namespace Toa.OpenSpan
variable {N : Type*}

def Series.Sound (series : Series N) : Prop := series.type = .histogram → series.buckets.isSome = true

structure Collection (N : Type*) where
  series : List (Series N)
  sound : ∀ one ∈ series, one.Sound

inductive Registered (N : Type*)
  | counter (instrument : Counter N)
  | gauge (instrument : Gauge N)
  | histogram (instrument : Histogram N)

def Registered.series : Registered N → List (Series N)
  | .counter instrument => instrument.series
  | .gauge instrument => instrument.series
  | .histogram instrument => instrument.series

theorem Registered.sound (registered : Registered N) : ∀ one ∈ registered.series, one.Sound := by
  intro one hone htype
  cases registered with
  | counter instrument =>
    rw [series, Counter.series] at hone
    obtain ⟨point, -, rfl⟩ := List.mem_map.mp hone
    cases htype
  | gauge instrument =>
    rw [series, Gauge.series] at hone
    obtain ⟨point, -, rfl⟩ := List.mem_map.mp hone
    cases htype
  | histogram instrument =>
    rw [series, Histogram.series] at hone
    obtain ⟨point, -, rfl⟩ := List.mem_map.mp hone
    rfl

/-- `collect` -/
def collect (instruments : List (Registered N)) : Collection N where
  series := instruments.flatMap Registered.series
  sound one hone := by
    obtain ⟨instrument, -, hmem⟩ := List.mem_flatMap.mp hone
    exact instrument.sound one hmem

/-! ## Requests -/

namespace Request

def CUMULATIVE : ℚ := 2

/-- `attributes`, of what is text or nothing. -/
def attributes (values : List (String × Option String)) : List Json :=
  values.filterMap fun (key, value) => value.map fun value =>
    .object [("key", .string key), ("value", .object [("stringValue", .string value)])]

section
-- how a number is written
variable (number : N → Json) (start time : String)

/-- `point`, which raises where a histogram has no buckets. -/
def point (series : Series N) : Option Json :=
  let point :=
    [("attributes", .array (attributes (series.labels.map fun (key, value) => (key, some value)))),
      ("startTimeUnixNano", .string start), ("timeUnixNano", .string time)]
  match series.type with
  | .histogram => series.buckets.map fun buckets =>
    .object (point ++ [("count", .string ((series.count.map toString).getD "undefined"))] ++
      (series.sum.map number).toList.map (("sum", ·)) ++
      [("bucketCounts", .array (buckets.map fun bucket => .string (toString bucket)))] ++
      series.bounds.toList.map fun bounds => ("explicitBounds", .array (bounds.map number)))
  | _ => some (.object (point ++ (series.value.map number).toList.map (("asDouble", ·))))

/-- `metric`, of a group that has a first. -/
def metric (group : List (Series N)) : Option Json :=
  match group with
  | [] => none
  | first :: _ => (group.mapM (point number start time)).map fun dataPoints =>
    .object ([("name", .string first.name)] ++ first.unit.toList.map (fun unit => ("unit", .string unit)) ++
      [match first.type with
        | .counter => ("sum", .object [("aggregationTemporality", .number CUMULATIVE),
          ("isMonotonic", .boolean true), ("dataPoints", .array dataPoints)])
        | .gauge => ("gauge", .object [("dataPoints", .array dataPoints)])
        | .histogram => ("histogram", .object [("aggregationTemporality", .number CUMULATIVE),
          ("dataPoints", .array dataPoints)])])

def groups (series : List (Series N)) : List (String × List (Series N)) :=
  series.foldl (fun metrics one => Assoc.gather one.name [one] (· ++ [one]) metrics) []

/-- `request` -/
def request (resource : List Json) (series : List (Series N)) : Option Json :=
  ((groups series).mapM fun group => metric number start time group.2).map fun metrics =>
    .object [("resourceMetrics", .array [.object [
      ("resource", .object [("attributes", .array resource)]),
      ("scopeMetrics", .array [.object [("scope", .object [("name", .string "openspan")]),
        ("metrics", .array metrics)]])]])]

end

variable {number : N → Json} {start time : String}

theorem isSome_point {series : Series N} (h : series.Sound) : (point number start time series).isSome = true := by
  rw [point]
  cases htype : series.type with
  | histogram =>
    simp only [Option.isSome_map]
    exact h htype
  | counter | gauge => rfl

theorem isSome_metric {group : List (Series N)} (hne : group ≠ []) (h : ∀ one ∈ group, one.Sound) :
    (metric number start time group).isSome = true := by
  cases group with
  | nil => exact absurd rfl hne
  | cons first group =>
    rw [metric, Option.isSome_map]
    exact Fallible.isSome_mapM fun one hone => isSome_point (h one hone)

def Grouped (group : List (Series N)) : Prop := group ≠ [] ∧ ∀ one ∈ group, one.Sound

theorem grouped (collection : Collection N) : ∀ group ∈ groups collection.series, Grouped group.2 := by
  have hsound := fun one hone => List.forall_mem_singleton.mpr (collection.sound one hone)
  refine @Assoc.forall_foldl_gather _ _ _ _ (fun _ group => Grouped group) _ _ _ _ _
    (fun _ h => absurd h List.not_mem_nil) (fun one hone => ⟨List.cons_ne_nil _ _, hsound one hone⟩) ?_
  rintro one hone group ⟨-, hgroup⟩
  exact ⟨List.append_ne_nil_of_right_ne_nil _ (List.cons_ne_nil _ _),
    List.forall_mem_append.mpr ⟨hgroup, hsound one hone⟩⟩

theorem isSome_request (resource : List Json) (collection : Collection N) :
    (request number start time resource collection.series).isSome = true := by
  rw [request, Option.isSome_map]
  refine Fallible.isSome_mapM fun group hgroup => ?_
  obtain ⟨hne, hsound⟩ := grouped collection group hgroup
  exact isSome_metric hne hsound

end Request

end Toa.OpenSpan
