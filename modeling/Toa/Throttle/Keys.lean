import Toa.Lib.Fork
import Toa.Lib.Utf16
import Toa.Lib.Utf8
import Toa.Throttle.Quotas

/-! What a throttle counts a request under: a digest of what each component of its key is in the
request. -/

namespace Toa.Throttle.Keys
open Utf16 Fork

abbrev Text := List UInt16

/-- What the components read of a request. `identity` is absent, or null, where it is anonymous. -/
structure Context where
  ip : Option Text
  pathname : Text
  identity : Option (Option Text)
deriving DecidableEq

structure Parameter where
  name : Text
  value : Text

inductive Rule
  | ip
  | path
  | route
  | identity
  | segment (name : Text)
deriving DecidableEq

/-- `key` is the one component declared, or as many as are. -/
structure Declaration where
  key : List Rule
  condition : Option (List (Option ℕ))
  requests : ℕ
  interval : ℕ
  requests_pos : 0 < requests
  interval_pos : 0 < interval

def Rule.get (route : Text) (rule : Rule) (context : Context) (parameters : List Parameter) : Option Text :=
  match rule with
  | .ip => context.ip
  | .path => some context.pathname
  | .route => some route
  | .identity => some ((context.identity.bind id).getD [])
  | .segment name => some (((parameters.find? fun p => decide (p.name = name)).map Parameter.value).getD [])

def encode (part : Text) : List UInt8 := Utf8.encode (chars part)

/-- What the hash is updated with, unless a component cannot key the request. -/
def update (route : Text) (context : Context) (parameters : List Parameter) :
    List UInt8 → List Rule → Option (List UInt8)
  | hash, [] => some hash
  | hash, component :: components =>
    match component.get route context parameters with
    | none => none
    | some part => update route context parameters (hash ++ encode part) components

section
variable {δ : Type*} (sha256 : List UInt8 → δ)

def get (components : List Rule) (route : Text) (context : Context) (parameters : List Parameter) :
    Option δ :=
  (update route context parameters [] components).map sha256

def Declaration.status (declaration : Declaration) : Option ℕ :=
  (declaration.condition.getD []).reduceOption.getLast?

def create (declaration : Declaration) (route : Text) : Options Context Parameter (Option ℕ) δ where
  get := get sha256 declaration.key route
  matched := fun _ output => declaration.status.all fun status => decide (output = some status)
  requests := declaration.requests
  interval := declaration.interval * 1000
  conditional := declaration.condition.isSome
  requests_pos := declaration.requests_pos
  interval_pos := Nat.mul_pos declaration.interval_pos (by decide)

end

def values (components : List Rule) (route : Text) (context : Context) (parameters : List Parameter) :
    Option (List Text) :=
  components.mapM fun component => component.get route context parameters

theorem values_cons (component : Rule) (components : List Rule) (route : Text) (context : Context)
    (parameters : List Parameter) : values (component :: components) route context parameters =
      (component.get route context parameters).bind fun part =>
        (values components route context parameters).map (part :: ·) := by
  rw [values, List.mapM_cons]
  cases component.get route context parameters with
  | none => rfl
  | some part =>
    change (values components route context parameters).bind (fun parts => some (part :: parts)) = _
    rw [Option.bind_some]
    cases values components route context parameters <;> rfl

theorem map_get_of_values {components : List Rule} {route : Text} {context : Context}
    {parameters : List Parameter} {parts : List Text}
    (h : values components route context parameters = some parts) :
    components.map (fun component => component.get route context parameters) = parts.map some := by
  induction components generalizing parts with
  | nil =>
    obtain rfl := Option.some.inj h
    rfl
  | cons component components ih =>
    rw [values_cons] at h
    obtain ⟨part, hpart, hrest⟩ := Option.bind_eq_some_iff.mp h
    obtain ⟨rest, hvalues, rfl⟩ := Option.map_eq_some_iff.mp hrest
    rw [List.map_cons, List.map_cons, hpart, ih hvalues]

theorem update_eq (route : Text) (context : Context) (parameters : List Parameter) (hash : List UInt8)
    (components : List Rule) : update route context parameters hash components =
      (values components route context parameters).map fun parts => hash ++ parts.flatMap encode := by
  induction components generalizing hash with
  | nil =>
    rw [update, values, List.mapM_nil]
    exact congrArg some (List.append_nil hash).symm
  | cons component components ih =>
    rw [update, values_cons]
    cases component.get route context parameters with
    | none => rfl
    | some part =>
      dsimp only
      rw [ih, Option.bind_some, Option.map_map]
      simp only [Function.comp_def, List.flatMap_cons, List.append_assoc]

/-- The values differ, and yet one goes on into what its neighbours are, or in lone surrogates only. -/
def Mixed (parts parts' : List Text) : Prop :=
  Shifted (parts.map chars) (parts'.map chars) ∨ Shifted (parts'.map chars) (parts.map chars) ∨
    parts ≠ parts' ∧ parts.map chars = parts'.map chars

theorem encode_eq (parts : List Text) :
    parts.flatMap encode = Utf8.encode (parts.map chars).flatten := by
  induction parts with
  | nil => rfl
  | cons part parts ih =>
    rw [List.flatMap_cons, List.map_cons, List.flatten_cons, Utf8.encode_append, ih]
    rfl

theorem mixed_iff {parts parts' : List Text} (hlength : parts.length = parts'.length) :
    Mixed parts parts' ↔ parts ≠ parts' ∧ parts.flatMap encode = parts'.flatMap encode := by
  rw [encode_eq, encode_eq]
  constructor
  · rintro (hshifted | hshifted | ⟨hne, hchars⟩)
    · exact ⟨fun heq => hshifted.ne (heq ▸ rfl), by rw [hshifted.flatten_eq]⟩
    · exact ⟨fun heq => hshifted.ne (heq ▸ rfl), by rw [hshifted.flatten_eq]⟩
    · exact ⟨hne, by rw [hchars]⟩
  · rintro ⟨hne, hencoded⟩
    have hflatten := Utf8.encode_injective hencoded
    by_cases hchars : parts.map chars = parts'.map chars
    · exact .inr (.inr ⟨hne, hchars⟩)
    · have hmapped : (parts.map chars).length = (parts'.map chars).length := by
        rw [List.length_map, List.length_map, hlength]
      exact (shifted_of_flatten hmapped hflatten hchars).imp_right .inl

theorem values_eq_iff {components : List Rule} {route : Text} {context context' : Context}
    {parameters parameters' : List Parameter} {parts parts' : List Text}
    (h : values components route context parameters = some parts)
    (h' : values components route context' parameters' = some parts') :
    parts = parts' ↔ ∀ component ∈ components,
      component.get route context parameters = component.get route context' parameters' := by
  rw [← List.map_inj_left, map_get_of_values h, map_get_of_values h']
  exact (List.map_injective_iff.mpr fun _ _ => Option.some.inj).eq_iff.symm

/-- Requests that differ are counted apart unless their values are mixed up with their neighbours'. -/
theorem separate_iff {δ : Type*} {sha256 : List UInt8 → δ} {declaration : Declaration} {route : Text}
    {context context' : Context} {parameters parameters' : List Parameter}
    (hsha256 : ∀ bytes bytes', update route context parameters [] declaration.key = some bytes →
      update route context' parameters' [] declaration.key = some bytes' →
      sha256 bytes = sha256 bytes' → bytes = bytes') :
    (∀ key, (create sha256 declaration route).get context parameters = some key →
        (create sha256 declaration route).get context' parameters' = some key →
        ∀ component ∈ declaration.key,
          component.get route context parameters = component.get route context' parameters') ↔
      ∀ parts parts', values declaration.key route context parameters = some parts →
        values declaration.key route context' parameters' = some parts' → ¬Mixed parts parts' := by
  have hget : ∀ context parameters, (create sha256 declaration route).get context parameters =
      (values declaration.key route context parameters).map fun parts => sha256 (parts.flatMap encode) := by
    intro context parameters
    change Option.map sha256 (update route context parameters [] declaration.key) = _
    rw [update_eq, Option.map_map]
    rfl
  simp only [hget]
  -- a request that lacks a component has no key, and is counted under none
  cases h : values declaration.key route context parameters with
  | none => simp
  | some parts =>
    cases h' : values declaration.key route context' parameters' with
    | none => simp
    | some parts' =>
      have hlength : parts.length = parts'.length := by
        have hmap := congrArg List.length (map_get_of_values h)
        have hmap' := congrArg List.length (map_get_of_values h')
        rw [List.length_map, List.length_map] at hmap hmap'
        rw [← hmap, hmap']
      have hhash : sha256 (parts.flatMap encode) = sha256 (parts'.flatMap encode) ↔
          parts.flatMap encode = parts'.flatMap encode := by
        refine ⟨hsha256 _ _ ?_ ?_, congrArg sha256⟩
        · rw [update_eq, h]
          rfl
        · rw [update_eq, h']
          rfl
      simp only [Option.map_some, Option.some.injEq, forall_eq', ← values_eq_iff h h']
      rw [eq_comm, hhash]
      constructor
      · rintro hsame _ _ rfl rfl hmixed
        obtain ⟨hne, hencoded⟩ := (mixed_iff hlength).mp hmixed
        exact hne (hsame hencoded)
      · intro hunmixed hencoded
        by_contra hne
        exact hunmixed parts parts' rfl rfl ((mixed_iff hlength).mpr ⟨hne, hencoded⟩)

def address : Text := ascii "1.1.1.1".toList

def client : Context := ⟨some address, ascii ['/'], none⟩

def declared : Declaration where
  key := [.ip, .segment (ascii ['a'])]
  condition := none
  requests := 1
  interval := 1
  requests_pos := Nat.one_pos
  interval_pos := Nat.one_pos

def asked (digit : Char) : List Parameter := [⟨ascii ['a'], ascii [digit]⟩]

def digests (bytes : List UInt8) : List UInt8 :=
  if bytes = encode address ++ encode (ascii ['2']) then
    [0x7f, 0x37, 0x61, 0x78, 0xaa, 0xbd, 0xd6, 0x7d, 0x6b, 0x0b, 0xab, 0xfa, 0xcc, 0x60, 0xab, 0xe6, 0xe0,
      0x19, 0x47, 0xd2, 0x5b, 0x3b, 0x4b, 0x5f, 0x7d, 0x5a, 0x24, 0x58, 0x47, 0x5a, 0x37, 0x05]
  else if bytes = encode address ++ encode (ascii ['3']) then
    [0x9d, 0x1f, 0xeb, 0x7e, 0xe4, 0xbb, 0x26, 0x4e, 0xe0, 0x71, 0x96, 0x20, 0xda, 0xc8, 0xaf, 0x10, 0x6f,
      0x60, 0xe6, 0x1a, 0x49, 0xe4, 0x75, 0x70, 0x23, 0xe5, 0xad, 0x53, 0x2e, 0xc1, 0x02, 0x0a]
  else []

theorem separate_iff_asked :
    (∀ key, (create digests declared []).get client (asked '2') = some key →
        (create digests declared []).get client (asked '3') = some key →
        ∀ component ∈ declared.key,
          component.get [] client (asked '2') = component.get [] client (asked '3')) ↔
      ∀ parts parts', values declared.key [] client (asked '2') = some parts →
        values declared.key [] client (asked '3') = some parts' → ¬Mixed parts parts' := by
  apply separate_iff
  have htwo : update [] client (asked '2') [] declared.key = some (encode address ++ encode (ascii ['2'])) := by
    decide +kernel
  have hthree : update [] client (asked '3') [] declared.key = some (encode address ++ encode (ascii ['3'])) := by
    decide +kernel
  rintro bytes bytes' hbytes hbytes' hsame
  obtain rfl := Option.some.inj (htwo.symm.trans hbytes)
  obtain rfl := Option.some.inj (hthree.symm.trans hbytes')
  exact absurd hsame (by decide +kernel)

def split : Declaration := { declared with key := [.segment (ascii ['a']), .segment (ascii ['b'])] }

def left : List Parameter := [⟨ascii ['a'], ascii ['x']⟩, ⟨ascii ['b'], ascii ['y', 'z']⟩]

def right : List Parameter := [⟨ascii ['a'], ascii ['x', 'y']⟩, ⟨ascii ['b'], ascii ['z']⟩]

/-- A value shifted into the next leaves two requests under one key, where what is digested is told apart. -/
theorem shifted_share_a_key :
    (∃ key, (create id split []).get client left = some key ∧
      (create id split []).get client right = some key) ∧
    ¬∀ component ∈ split.key, component.get [] client left = component.get [] client right := by
  have hleft : update [] client left [] split.key = some (encode (ascii ['x', 'y', 'z'])) := by
    decide +kernel
  have hright : update [] client right [] split.key = some (encode (ascii ['x', 'y', 'z'])) := by
    decide +kernel
  refine ⟨⟨encode (ascii ['x', 'y', 'z']), ?_, ?_⟩, by decide +kernel⟩
  · exact congrArg (Option.map id) hleft
  · exact congrArg (Option.map id) hright

end Toa.Throttle.Keys
