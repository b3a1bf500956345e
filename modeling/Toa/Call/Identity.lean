import Toa.Continuity.Key
import Toa.Lib.Utf16

/-! The identity of a call: a digest of the invocation that makes it, what it is made to, and how many
calls to that the invocation made before. -/

namespace Toa.Call.Identity
open Utf16

/-- A string, by its code units. -/
abbrev Text := List UInt16

def NAMESPACE : List UInt8 := [0x26, 0xbd, 0x9b, 0xc6, 0x67, 0x5c, 0x44, 0x65, 0x9b, 0x42, 0x9e, 0x00,
  0x8b, 0x20, 0xbe, 0xfe]

def decimal (n : ℕ) : Text := ascii (Nat.toDigits 10 n)

def name (parts : List Text) : Text := parts.flatMap fun part => decimal part.length ++ ascii [':'] ++ part

def hashed (parts : List Text) : List UInt8 := NAMESPACE ++ Utf8.encode (chars (name parts))

def stamp (digest : List UInt8) : List UInt8 :=
  (digest.modify 6 fun b => (b &&& 0x0f) ||| 0x50).modify 8 fun b => (b &&& 0x3f) ||| 0x80

def hex (bytes : List UInt8) : List Char :=
  bytes.flatMap fun b => [Nat.digitChar (b.toNat / 16), Nat.digitChar (b.toNat % 16)]

def kept (digest : List UInt8) : List UInt8 := (stamp digest).take 16

section
variable (sha1 : List UInt8 → List UInt8)

def derive (parts : List Text) : List Char := hex (kept (sha1 (hashed parts)))

/-- `calls` counts what was made to each endpoint. -/
structure Invocation where
  id : Option Text
  calls : Text → ℕ

def ordinal (invocation : Invocation) (endpoint : Text) : ℕ × Invocation :=
  (invocation.calls endpoint,
    { invocation with
      calls := Function.update invocation.calls endpoint (invocation.calls endpoint + 1) })

/-- `newid` is what a call makes where there is nothing to derive from. -/
def identity (invocation : Invocation) (target : Text) (newid : List Char) : List Char × Invocation :=
  match invocation.id with
  | none => (newid, invocation)
  | some id =>
    (derive sha1 [id, target, decimal (ordinal invocation target).1], (ordinal invocation target).2)

def identities : Invocation → List (Text × List Char) → List (List Char)
  | _, [] => []
  | invocation, (target, newid) :: calls =>
    (identity sha1 invocation target newid).1 :: identities (identity sha1 invocation target newid).2 calls

end

/-! ## What is hashed -/

theorem digit_lt {c : Char} {n : ℕ} (h : c ∈ Nat.toDigits 10 n) : c.toNat < 0x80 := by
  have hdigit := Nat.isDigit_of_mem_toDigits (by decide) (by decide) h
  simp only [Char.isDigit, Bool.and_eq_true, decide_eq_true_eq] at hdigit
  have hle : c.toNat ≤ 57 := hdigit.2
  omega

theorem head_name (parts : List Text) : ∀ u, (name parts).head? = some u → low u = false := by
  intro u hu
  cases parts with
  | nil => cases hu
  | cons part parts =>
    have hne : decimal part.length ≠ [] := fun h => Nat.toDigits_ne_nil (List.map_eq_nil_iff.mp h)
    rw [name, List.flatMap_cons, List.append_assoc, List.append_assoc, List.head?_append_of_ne_nil _ hne] at hu
    exact low_ascii (fun _ => digit_lt) u (List.mem_of_head? hu)

theorem chars_name (parts : List Text) : chars (name parts) = Continuity.name (parts.map chars) := by
  induction parts with
  | nil => rfl
  | cons part parts ih =>
    have hcolon : ∀ c ∈ [':'], c.toNat < 0x80 := List.forall_mem_singleton.mpr (by decide)
    have hname : name (part :: parts) =
        ascii (Nat.toDigits 10 part.length) ++ (ascii [':'] ++ (part ++ name parts)) := by
      rw [name, List.flatMap_cons, List.append_assoc, List.append_assoc]
      rfl
    have hlength : Continuity.units (chars part) = part.length := sum_width_chars part
    rw [hname, chars_ascii_append fun _ => digit_lt, chars_ascii_append hcolon,
      chars_append part (head_name parts), ih, List.map_cons, Continuity.name, Continuity.name,
      List.flatMap_cons, Continuity.named, hlength]
    simp only [List.append_assoc, List.cons_append, List.nil_append]

theorem hashed_eq_iff {parts others : List Text} :
    hashed parts = hashed others ↔ parts.map chars = others.map chars := by
  rw [hashed, hashed, List.append_cancel_left_eq]
  constructor
  · intro h
    have hname := Utf8.encode_injective h
    rw [chars_name, chars_name] at hname
    exact Continuity.name_injective hname
  · intro h
    rw [chars_name, chars_name, h]

theorem hashed_of_wellFormed {parts others : List Text} (hparts : ∀ part ∈ parts, wellFormed part = true)
    (hothers : ∀ part ∈ others, wellFormed part = true) (h : hashed parts = hashed others) :
    parts = others := by
  have hchars := hashed_eq_iff.mp h
  clear h
  induction parts generalizing others with
  | nil => exact (List.map_eq_nil_iff.mp hchars.symm).symm
  | cons part parts ih =>
    cases others with
    | nil => cases hchars
    | cons other others =>
      obtain ⟨hhead, htail⟩ := List.cons.inj hchars
      have hsame := chars_inj (hparts part List.mem_cons_self) (hothers other List.mem_cons_self) hhead
      have hrest := ih (fun p hp => hparts p (List.mem_cons_of_mem _ hp))
        (fun p hp => hothers p (List.mem_cons_of_mem _ hp)) htail
      rw [hsame, hrest]

theorem digitChar_inj {n m : ℕ} (hn : n < 16) (hm : m < 16) (h : Nat.digitChar n = Nat.digitChar m) :
    n = m := by
  have hall : ∀ i j : Fin 16, Nat.digitChar i = Nat.digitChar j → i = j := by decide
  exact congrArg Fin.val (hall ⟨n, hn⟩ ⟨m, hm⟩ h)

theorem hex_injective {bytes others : List UInt8} (h : hex bytes = hex others) : bytes = others := by
  induction bytes generalizing others with
  | nil =>
    cases others with
    | nil => rfl
    | cons b others => cases h
  | cons a bytes ih =>
    cases others with
    | nil => cases h
    | cons b others =>
      simp only [hex, List.flatMap_cons, List.cons_append, List.nil_append, List.cons.injEq] at h
      obtain ⟨hfirst, hsecond, hrest⟩ := h
      have ha := a.toNat_lt
      have hb := b.toNat_lt
      have hhigh := digitChar_inj (by omega) (by omega) hfirst
      have hlow := digitChar_inj (by omega) (by omega) hsecond
      have hsame : a.toNat = b.toNat := by omega
      rw [UInt8.toNat_inj.mp hsame, ih hrest]

/-! ## The calls of an invocation -/

def Invocation.begin (id : Text) : Invocation := ⟨some id, fun _ => 0⟩

def derived (id : Text) : (Text → ℕ) → List Text → List (List Text)
  | _, [] => []
  | calls, target :: targets =>
    [id, target, decimal (calls target)] ::
      derived id (Function.update calls target (calls target + 1)) targets

theorem identities_eq (sha1 : List UInt8 → List UInt8) (id : Text) (counts : Text → ℕ)
    (calls : List (Text × List Char)) : identities sha1 ⟨some id, counts⟩ calls =
      (derived id counts (calls.map Prod.fst)).map (derive sha1) := by
  induction calls generalizing counts with
  | nil => rfl
  | cons call calls ih => exact congrArg (_ :: ·) (ih _)

theorem mem_derived {id : Text} {counts : Text → ℕ} {targets : List Text} {parts : List Text}
    (h : parts ∈ derived id counts targets) :
    ∃ target n, target ∈ targets ∧ counts target ≤ n ∧ parts = [id, target, decimal n] := by
  induction targets generalizing counts with
  | nil => cases h
  | cons target targets ih =>
    rcases List.mem_cons.mp h with rfl | h
    · exact ⟨target, counts target, List.mem_cons_self, le_rfl, rfl⟩
    · obtain ⟨target', n, htarget, hle, rfl⟩ := ih h
      refine ⟨target', n, List.mem_cons_of_mem _ htarget, ?_, rfl⟩
      rw [Function.update_apply] at hle
      split_ifs at hle with hsame
      · exact hsame ▸ (Nat.le_succ _).trans hle
      · exact hle

theorem first_derived {id target : Text} {counts : Text → ℕ} {targets : List Text}
    (h : target ∈ targets) : [id, target, decimal (counts target)] ∈ derived id counts targets := by
  induction targets generalizing counts with
  | nil => cases h
  | cons target' targets ih =>
    by_cases hsame : target = target'
    · subst hsame
      exact List.mem_cons_self
    · have hrest := @ih (Function.update counts target' (counts target' + 1))
        ((List.mem_cons.mp h).resolve_left hsame)
      rw [Function.update_of_ne hsame] at hrest
      exact List.mem_cons_of_mem _ hrest

theorem chars_decimal (n : ℕ) : chars (decimal n) = Nat.toDigits 10 n := by
  have h := chars_ascii_append (fun _ => digit_lt (n := n)) []
  rw [List.append_nil] at h
  exact h.trans (List.append_nil _)

theorem nodup_derived {id : Text} {counts : Text → ℕ} {targets : List Text}
    (h : ∀ a ∈ targets, ∀ b ∈ targets, chars a = chars b → a = b) :
    ((derived id counts targets).map hashed).Nodup := by
  induction targets generalizing counts with
  | nil => exact List.nodup_nil
  | cons target targets ih =>
    have hrest := fun a ha b hb => h a (List.mem_cons_of_mem _ ha) b (List.mem_cons_of_mem _ hb)
    refine List.nodup_cons.mpr ⟨fun hmem => ?_, ih hrest⟩
    obtain ⟨parts, hparts, hsame⟩ := List.mem_map.mp hmem
    obtain ⟨target', n, htarget, hle, rfl⟩ := mem_derived hparts
    have hchars := hashed_eq_iff.mp hsame
    simp only [List.map_cons, List.map_nil, List.cons.injEq, and_true, true_and, chars_decimal] at hchars
    obtain rfl := h target' (List.mem_cons_of_mem _ htarget) target List.mem_cons_self hchars.1
    have hcount := Continuity.toDigits_injective hchars.2
    rw [Function.update_self] at hle
    omega

/-- What is kept of a digest tells the parts apart that are hashed. -/
def Apart (sha1 : List UInt8 → List UInt8) (names : List (List Text)) : Prop :=
  ∀ x ∈ names, ∀ y ∈ names, kept (sha1 (hashed x)) = kept (sha1 (hashed y)) → hashed x = hashed y

theorem identities_nodup_iff {sha1 : List UInt8 → List UInt8} {id : Text} {calls : List (Text × List Char)}
    (hsha1 : Apart sha1 (derived id (fun _ => 0) (calls.map Prod.fst))) :
    (identities sha1 (.begin id) calls).Nodup ↔
      ∀ a ∈ calls.map Prod.fst, ∀ b ∈ calls.map Prod.fst, chars a = chars b → a = b := by
  rw [Invocation.begin, identities_eq]
  constructor
  · intro hnodup a ha b hb hchars
    have hfirst : derive sha1 [id, a, decimal 0] = derive sha1 [id, b, decimal 0] := by
      have hhashed : hashed [id, a, decimal 0] = hashed [id, b, decimal 0] :=
        hashed_eq_iff.mpr (by simp only [List.map_cons, hchars])
      rw [derive, derive, hhashed]
    have hsame := List.inj_on_of_nodup_map hnodup (first_derived ha) (first_derived hb) hfirst
    simp only [List.cons.injEq, true_and, and_true] at hsame
    exact hsame
  · intro h
    have hhashed := @nodup_derived id (fun _ => 0) _ h
    have hnames := hhashed.of_map
    refine (List.nodup_map_iff_inj_on hnames).mpr fun x hx y hy heq => ?_
    have hkept := hsha1 x hx y hy (hex_injective heq)
    exact List.inj_on_of_nodup_map hhashed hx hy hkept

/-- Parts are told apart unless they differ in lone surrogates only, and so are the calls of an
invocation, whose identities are those of every run that makes the same calls. -/
theorem derive_told (parts others : List Text) (sha1 : List UInt8 → List UInt8) (id : Text)
    (calls again : List (Text × List Char)) :
    ((hashed parts = hashed others → parts = others) ↔
      (parts.map chars = others.map chars → parts = others)) ∧
    ((∀ part ∈ parts, wellFormed part = true) → (∀ part ∈ others, wellFormed part = true) →
      hashed parts = hashed others → parts = others) ∧
    (Apart sha1 (derived id (fun _ => 0) (calls.map Prod.fst)) →
      ((identities sha1 (.begin id) calls).Nodup ↔
        ∀ a ∈ calls.map Prod.fst, ∀ b ∈ calls.map Prod.fst, chars a = chars b → a = b)) ∧
    (again.map Prod.fst = calls.map Prod.fst →
      identities sha1 (.begin id) again = identities sha1 (.begin id) calls) := by
  refine ⟨?_, hashed_of_wellFormed, identities_nodup_iff, fun h => ?_⟩
  · rw [hashed_eq_iff]
  · rw [Invocation.begin, identities_eq, identities_eq, h]

def zeroth : List Text := [ascii ['a'], ascii ['b'], decimal 0]

def first : List Text := [ascii ['a'], ascii ['b'], decimal 1]

def digests (bytes : List UInt8) : List UInt8 :=
  if bytes = hashed zeroth then
    [0x85, 0x0e, 0xc7, 0x0d, 0xfe, 0x2f, 0xa5, 0xdf, 0xb1, 0xa2, 0xee, 0xd9, 0xa1, 0xf1, 0xdd, 0xfc, 0x35,
      0x3f, 0xdd, 0x65]
  else if bytes = hashed first then
    [0xca, 0xa4, 0x2d, 0x8c, 0xf0, 0x7c, 0xec, 0xc4, 0x3f, 0xa8, 0xc6, 0x62, 0x57, 0xca, 0xb8, 0x14, 0xa7,
      0x0d, 0xa5, 0x17]
  else []

theorem derive_told_twice :
    (hashed zeroth = hashed first → zeroth = first) ∧
      (identities digests (.begin (ascii ['a'])) [(ascii ['b'], []), (ascii ['b'], [])]).Nodup ∧
      identities digests (.begin (ascii ['a'])) [(ascii ['b'], ['c']), (ascii ['b'], [])] =
        identities digests (.begin (ascii ['a'])) [(ascii ['b'], []), (ascii ['b'], [])] := by
  obtain ⟨-, hplain, hcalls, hagain⟩ := derive_told zeroth first digests (ascii ['a'])
    [(ascii ['b'], []), (ascii ['b'], [])] [(ascii ['b'], ['c']), (ascii ['b'], [])]
  refine ⟨hplain (by decide) (by decide), ?_, hagain rfl⟩
  have hnames : derived (ascii ['a']) (fun _ => 0) [ascii ['b'], ascii ['b']] = [zeroth, first] := by
    decide +kernel
  have hkept : kept (digests (hashed zeroth)) ≠ kept (digests (hashed first)) := by decide +kernel
  apply (hcalls ?_).mpr
  · intro a ha b hb _
    simp only [List.map_cons, List.map_nil, List.mem_cons, List.not_mem_nil, or_false, or_self] at ha hb
    rw [ha, hb]
  · intro x hx y hy hsame
    simp only [List.map_cons, List.map_nil, hnames, List.mem_cons, List.not_mem_nil, or_false] at hx hy
    rcases hx with rfl | rfl <;> rcases hy with rfl | rfl
    · rfl
    · exact absurd hsame hkept
    · exact absurd hsame.symm hkept
    · rfl

/-- Two surrogates with no pair are hashed as one replacement. -/
theorem lone_surrogates_collide :
    ¬∀ parts others : List Text, hashed parts = hashed others → parts = others := by
  intro h
  have hsame : hashed [[0xD800]] = hashed [[0xD801]] := by decide +kernel
  have hparts := h [[0xD800]] [[0xD801]] hsame
  exact absurd hparts (by decide)

end Toa.Call.Identity
