import Mathlib.Data.List.Sort
import Mathlib.Data.Int.Order.Basic
import Toa.Lib.Assoc
import Toa.Lib.Fallible
import Toa.Lib.Sorted

/-! The directives of a method: what is made of its declarations, and the order its families run in
at a request. -/

namespace Toa.RTD
universe u

/-- `syntax.Directive` -/
structure Syntax.Directive (υ : Type u) where
  family : String
  name : String
  value : υ

/-- A family of directives: what it makes of a declaration, how it arranges the directives of one
route, and what it does at a call and on what the call produced. -/
structure Family (υ δ σ ο : Type u) where
  name : String
  mandatory : Bool
  inherited : Option Bool
  create : String → υ → String → Except String δ
  arrange : Option (List δ → List δ)
  precall : Option (List δ → σ → Except String (σ × Option ο))
  settle : Option (List δ → σ → Except String σ)

structure DirectiveSet (υ δ σ ο : Type u) where
  family : Family υ δ σ ο
  directives : List δ
  names : List String

/-- The families of a gateway, each of its own name, in the order they are registered in. -/
structure DirectivesFactory (υ δ σ ο : Type u) where
  registered : List (Family υ δ σ ο)
  distinct : (registered.map Family.name).Nodup

namespace DirectivesFactory
variable {υ δ σ ο : Type u} (factory : DirectivesFactory υ δ σ ο)

/-- `this.families[name]` -/
def families (name : String) : Option (Family υ δ σ ο) :=
  factory.registered.find? fun family => family.name = name

def mandatory : List String := (factory.registered.filter (·.mandatory)).map Family.name

def inheritable (directive : Syntax.Directive υ) : Bool :=
  (factory.families directive.family).bind Family.inherited != some false

/-- Mandatory families first, in their own order; everything else keeps its own. -/
def rank (family : String) : ℕ := factory.mandatory.idxOf family

structure Made (δ : Type u) where
  family : String
  directive : δ
  named : String

def make (route : String) (declaration : Syntax.Directive υ) : Except String (Made δ) :=
  match factory.families declaration.family with
  | none => .error ("Directive family '" ++ declaration.family ++ "' is not found")
  | some family =>
    (family.create declaration.name declaration.value route).map fun directive =>
      ⟨family.name, directive, declaration.family ++ ":" ++ declaration.name⟩

/-- `groups` and `names`, under the families in the order they were first mentioned in. -/
def groups (made : List (Made δ)) : List (String × List (Made δ)) :=
  made.foldl (fun groups one => Assoc.gather one.family [one] (· ++ [one]) groups) []

def set (groups : List (String × List (Made δ))) (name : String) : Option (DirectiveSet υ δ σ ο) :=
  (factory.families name).map fun family =>
    ⟨family, ((groups.lookup name).getD []).map Made.directive, ((groups.lookup name).getD []).map Made.named⟩

def arranged (set : DirectiveSet υ δ σ ο) : DirectiveSet υ δ σ ο :=
  { set with directives := (set.family.arrange.getD id) set.directives }

def create (declarations : List (Syntax.Directive υ)) (route : String) :
    Except String (List (DirectiveSet υ δ σ ο)) := do
  let made ← declarations.mapM (factory.make route)
  let mentioned := (groups made).map Prod.fst
  -- the mandatory families nothing was declared of, and then what was declared
  let sets := (factory.mandatory.filter (· ∉ mentioned) ++ mentioned).filterMap (factory.set (groups made))
  let sorted := sets.insertionSort fun a b => factory.rank a.family.name ≤ factory.rank b.family.name
  pure (sorted.map arranged)

/-! ## What is created -/

/-- The sets a method is created with: the mandatory families in the order of registration, then the
others that were mentioned, each with what its declarations were made into, arranged by it. -/
structure Arranged (declarations : List (Syntax.Directive υ)) (route : String)
    (sets : List (DirectiveSet υ δ σ ο)) : Prop where
  order : ∃ others, sets.map (·.family.name) = factory.mandatory ++ others ∧ others.Nodup ∧
    ∀ name, name ∈ others ↔ (∃ declaration ∈ declarations, declaration.family = name) ∧
      name ∉ factory.mandatory
  registered : ∀ set ∈ sets, factory.families set.family.name = some set.family
  directives : ∀ set ∈ sets, ∃ created,
    (declarations.filter (·.family = set.family.name)).mapM
      (fun declaration => set.family.create declaration.name declaration.value route) = .ok created ∧
    set.directives = (set.family.arrange.getD id) created

variable {factory}

theorem families_eq_some {name : String} {family : Family υ δ σ ο}
    (h : factory.families name = some family) : family.name = name := by
  unfold families at h
  simpa using List.find?_some h

theorem families_of_mem_mandatory {name : String} (h : name ∈ factory.mandatory) :
    (factory.families name).isSome = true := by
  obtain ⟨family, hfamily, rfl⟩ := List.mem_map.mp h
  have hregistered := (List.mem_filter.mp hfamily).1
  exact List.find?_isSome.mpr ⟨family, hregistered, decide_eq_true rfl⟩

theorem nodup_mandatory : factory.mandatory.Nodup :=
  factory.distinct.sublist (List.filter_sublist.map _)

theorem make_ok {route : String} {declaration : Syntax.Directive υ} {made : Made δ}
    (h : factory.make route declaration = .ok made) :
    made.family = declaration.family ∧ ∃ family, factory.families declaration.family = some family ∧
      family.create declaration.name declaration.value route = .ok made.directive := by
  unfold make at h
  cases hfamily : factory.families declaration.family with
  | none =>
    rw [hfamily] at h
    cases h
  | some family =>
    simp only [hfamily] at h
    cases hcreate : family.create declaration.name declaration.value route with
    | error e =>
      rw [hcreate] at h
      cases h
    | ok directive =>
      rw [hcreate] at h
      cases h
      exact ⟨families_eq_some hfamily, family, rfl, hcreate⟩

theorem lookup_groups (made : List (Made δ)) (name : String) :
    (groups made).lookup name =
      if made.filter (·.family = name) = [] then none else some (made.filter (·.family = name)) := by
  unfold groups
  rw [Assoc.lookup_foldl_gather, List.lookup_nil]
  split_ifs with hnil
  · rw [hnil]
    rfl
  · exact @Assoc.foldl_some_elim (Made δ) (List (Made δ)) (fun one => [one])
      (fun one held => held ++ [one]) id (fun _ => rfl) (fun _ _ _ => rfl) _ hnil

theorem getD_lookup_groups (made : List (Made δ)) (name : String) :
    ((groups made).lookup name).getD [] = made.filter (·.family = name) := by
  rw [lookup_groups]
  split_ifs with hnil
  · exact hnil.symm
  · rfl

theorem mem_keys_groups {made : List (Made δ)} {name : String} :
    name ∈ (groups made).map Prod.fst ↔ name ∈ made.map Made.family := by
  rw [← not_iff_not, ← Assoc.lookup_eq_none_iff, lookup_groups, List.mem_map, not_exists]
  split_ifs with hnil
  · refine iff_of_true rfl fun one hone => ?_
    exact List.filter_eq_nil_iff.mp hnil one hone.1 (decide_eq_true hone.2)
  · obtain ⟨one, hone⟩ := List.exists_mem_of_ne_nil _ hnil
    obtain ⟨hmem, hname⟩ := List.mem_filter.mp hone
    exact iff_of_false not_false fun h => h one ⟨hmem, of_decide_eq_true hname⟩

theorem nodup_keys_groups (made : List (Made δ)) : ((groups made).map Prod.fst).Nodup :=
  Assoc.nodup_foldl_gather made List.nodup_nil

theorem set_eq {held : List (String × List (Made δ))} {name : String} {family : Family υ δ σ ο}
    (h : factory.families name = some family) :
    factory.set held name = some ⟨family, ((held.lookup name).getD []).map Made.directive,
      ((held.lookup name).getD []).map Made.named⟩ := by
  rw [set, h]
  rfl

theorem names_sets {held : List (String × List (Made δ))} {names : List String}
    (h : ∀ name ∈ names, (factory.families name).isSome = true) :
    (names.filterMap (factory.set held)).map (·.family.name) = names := by
  induction names with
  | nil => rfl
  | cons name names ih =>
    obtain ⟨hname, hnames⟩ := List.forall_mem_cons.mp h
    obtain ⟨family, hfamily⟩ := Option.isSome_iff_exists.mp hname
    rw [List.filterMap_cons_some (set_eq hfamily), List.map_cons, ih hnames, families_eq_some hfamily]

theorem created_of_made {declarations : List (Syntax.Directive υ)} {route : String}
    {made : List (Made δ)} (h : declarations.mapM (factory.make route) = .ok made) {name : String}
    {family : Family υ δ σ ο} (hfamily : factory.families name = some family) :
    (declarations.filter (·.family = name)).mapM
        (fun declaration => family.create declaration.name declaration.value route) =
      .ok ((made.filter (·.family = name)).map Made.directive) := by
  have hfilter := Fallible.mapM_filter (p := fun d => d.family = name) (q := fun m => m.family = name)
    (fun d m hm => by rw [(make_ok hm).1]) h
  refine Fallible.mapM_of_forall₂ (List.forall₂_map_right_iff.mpr ?_)
  have hnames : ∀ d ∈ declarations.filter (·.family = name), d.family = name :=
    fun d hd => of_decide_eq_true (List.mem_filter.mp hd).2
  refine ((List.forall₂_and_left _ _).mpr ⟨hnames, Fallible.mapM_ok hfilter⟩).imp ?_
  rintro d m ⟨hd, hm⟩
  obtain ⟨-, other, hother, hcreate⟩ := make_ok hm
  rw [hd, hfamily] at hother
  cases hother
  exact hcreate

theorem families_of_made {declarations : List (Syntax.Directive υ)} {route : String}
    {made : List (Made δ)} (h : declarations.mapM (factory.make route) = .ok made) {name : String}
    (hname : name ∈ declarations.map (·.family)) : (factory.families name).isSome = true := by
  induction Fallible.mapM_ok h with
  | nil => exact absurd hname List.not_mem_nil
  | cons hm _ ih =>
    rcases List.mem_cons.mp hname with rfl | hrest
    · obtain ⟨-, family, hfamily, -⟩ := make_ok hm
      exact Option.isSome_iff_exists.mpr ⟨family, hfamily⟩
    · exact ih (Fallible.mapM_of_forall₂ ‹_›) hrest

theorem arranged_of_create {declarations : List (Syntax.Directive υ)} {route : String}
    {sets : List (DirectiveSet υ δ σ ο)} (h : factory.create declarations route = .ok sets) :
    factory.Arranged declarations route sets := by
  unfold create at h
  obtain ⟨made, hmade, hrest⟩ := Fallible.bind_ok h
  cases hrest
  have hfamilies : made.map Made.family = declarations.map (·.family) := by
    clear h
    induction Fallible.mapM_ok hmade with
    | nil => rfl
    | cons hm _ ih => rw [List.map_cons, List.map_cons, ih (Fallible.mapM_of_forall₂ ‹_›), (make_ok hm).1]
  have hmentioned : ∀ name, name ∈ (groups made).map Prod.fst ↔ name ∈ declarations.map (·.family) :=
    fun name => by rw [mem_keys_groups, hfamilies]
  generalize hnames : factory.mandatory.filter (· ∉ (groups made).map Prod.fst) ++
    (groups made).map Prod.fst = names
  have hmem : ∀ name, name ∈ names ↔ name ∈ factory.mandatory ∨ name ∈ declarations.map (·.family) := by
    intro name
    rw [← hnames, List.mem_append, List.mem_filter, decide_eq_true_eq, hmentioned]
    tauto
  have hfound : ∀ name ∈ names, (factory.families name).isSome = true := by
    intro name hname
    rcases (hmem name).mp hname with hmandatory | hdeclared
    · exact families_of_mem_mandatory hmandatory
    · exact families_of_made hmade hdeclared
  have hnodup : names.Nodup := by
    rw [← hnames]
    refine List.nodup_append.mpr ⟨nodup_mandatory.filter _, nodup_keys_groups made, ?_⟩
    rintro name hname _ hkey rfl
    exact of_decide_eq_true (List.mem_filter.mp hname).2 hkey
  refine ⟨?_, ?_, ?_⟩
  · have hmap := List.map_insertionSort
      (fun a b : DirectiveSet υ δ σ ο => factory.rank a.family.name ≤ factory.rank b.family.name)
      (fun a b => factory.rank a ≤ factory.rank b) (fun set => set.family.name)
      (names.filterMap (factory.set (groups made))) (fun _ _ _ _ => Iff.rfl)
    rw [names_sets hfound] at hmap
    obtain ⟨others, hsorted, hothers, hin⟩ := Sorted.exists_eq_append nodup_mandatory hnodup
      (fun a ha => (hmem a).mpr (.inl ha)) (List.perm_insertionSort _ _)
      (List.pairwise_insertionSort (fun a b => factory.rank a ≤ factory.rank b) names)
    refine ⟨others, ?_, hothers, fun name => ?_⟩
    · rw [List.map_map, ← hsorted]
      exact hmap
    · rw [hin, hmem, List.mem_map]
      tauto
  all_goals
    intro set hset
    obtain ⟨sorted, hsorted, rfl⟩ := List.mem_map.mp hset
    obtain ⟨name, -, hname⟩ := List.mem_filterMap.mp ((List.mem_insertionSort _).mp hsorted)
    obtain ⟨family, hfamily, rfl⟩ := Option.map_eq_some_iff.mp hname
    obtain rfl := families_eq_some hfamily
  · exact hfamily
  · refine ⟨_, created_of_made hmade hfamily, ?_⟩
    rw [← getD_lookup_groups]
    rfl

end DirectivesFactory

/-! ## At a request -/

namespace Directives
variable {υ δ σ ο η τ : Type u}

/-- The families with a hook, each over its directives: which were run, and what came of it. The
first that throws ends it. -/
def through (hook : Family υ δ σ ο → Option η) (call : η → List δ → τ → Except String τ) :
    List (DirectiveSet υ δ σ ο) → τ → List (String × List δ) × Except String τ
  | [], t => ([], .ok t)
  | set :: sets, t =>
    match hook set.family with
    | none => through hook call sets t
    | some run =>
      match call run set.directives t with
      | .error e => ([(set.family.name, set.directives)], .error e)
      | .ok t' =>
        ((set.family.name, set.directives) :: (through hook call sets t').1, (through hook call sets t').2)

def answered (run : List δ → σ → Except String (σ × Option ο)) (directives : List δ)
    (held : σ × Option ο) : Except String (σ × Option ο) :=
  match run directives held.1 with
  | .error e => .error e
  | .ok (context, none) => .ok (context, held.2)
  | .ok (context, some out) =>
    match held.2 with
    | none => .ok (context, some out)
    | some _ => .error "Multiple precall directives responded"

def precall (sets : List (DirectiveSet υ δ σ ο)) (context : σ) :
    List (String × List δ) × Except String (σ × Option ο) :=
  through Family.precall answered sets (context, none)

def settle (sets : List (DirectiveSet υ δ σ ο)) (context : σ) :
    List (String × List δ) × Except String σ :=
  through Family.settle (fun run => run) sets context

def due (hook : Family υ δ σ ο → Option η) (sets : List (DirectiveSet υ δ σ ο)) :
    List (String × List δ) :=
  (sets.filter fun set => (hook set.family).isSome).map fun set => (set.family.name, set.directives)

theorem through_runs (hook : Family υ δ σ ο → Option η) (call : η → List δ → τ → Except String τ)
    (sets : List (DirectiveSet υ δ σ ο)) (t : τ) :
    (through hook call sets t).1 <+: due hook sets ∧
      ∀ t', (through hook call sets t).2 = .ok t' → (through hook call sets t).1 = due hook sets := by
  induction sets generalizing t with
  | nil => exact ⟨List.prefix_rfl, fun _ _ => rfl⟩
  | cons set sets ih =>
    cases hhook : hook set.family with
    | none =>
      have hdue : due hook (set :: sets) = due hook sets := by
        rw [due, List.filter_cons_of_neg (by rw [hhook]; exact Bool.false_ne_true)]
        rfl
      rw [hdue, through, hhook]
      exact ih t
    | some run =>
      have hdue : due hook (set :: sets) = (set.family.name, set.directives) :: due hook sets := by
        rw [due, List.filter_cons_of_pos (by rw [hhook]; rfl)]
        rfl
      rw [hdue, through, hhook]
      cases hcall : call run set.directives t with
      | error e =>
        simp only [hcall]
        refine ⟨List.cons_prefix_cons.mpr ⟨rfl, List.nil_prefix⟩, fun t' ht => ?_⟩
        cases ht
      | ok t' =>
        simp only [hcall]
        exact ⟨List.cons_prefix_cons.mpr ⟨rfl, (ih t').1⟩, fun u hu => by rw [(ih t').2 u hu]⟩

end Directives
end Toa.RTD
