import Toa.Continuity.Fingerprint

/-! The key of a step: the run, what is asked, and how many times the attempt has asked it before. -/

namespace Toa.Continuity

/-- What an id is a function of. Digests are hexadecimal, and what is hashed is told by its hash. -/
structure Hashing (κ : Type*) where
  sha1 : List UInt8 → List Char
  uuid : List Char → κ
  sha1_injective : Function.Injective sha1
  sha1_hex : ∀ bytes, ':' ∉ sha1 bytes
  uuid_injective : Function.Injective uuid

/-- `length`, in code units -/
def units (part : List Char) : ℕ := (part.map fun c => if c.toNat < 0x10000 then 1 else 2).sum

def named (part : List Char) : List Char := Nat.toDigits 10 (units part) ++ ':' :: part

def name (parts : List (List Char)) : List Char := parts.flatMap named

theorem units_append (part rest : List Char) : units (part ++ rest) = units part + units rest := by
  rw [units, List.map_append, List.sum_append]
  rfl

theorem eq_nil_of_units {part : List Char} (h : units part = 0) : part = [] := by
  cases part with
  | nil => rfl
  | cons c part =>
    simp only [units, List.map_cons, List.sum_cons] at h
    split at h <;> omega

theorem toDigits_injective {n m : ℕ} (h : Nat.toDigits 10 n = Nat.toDigits 10 m) : n = m := by
  have hread := congrArg (fun digits => Nat.ofDigitChars 10 digits 0) h
  simpa only [Nat.ofDigitChars_ten_toDigits] using hread

theorem colon_toDigits (n : ℕ) : ':' ∉ Nat.toDigits 10 n := fun h =>
  absurd (Nat.isDigit_of_mem_toDigits (by decide) (by decide) h) (by decide)

theorem named_append {part part' rest rest' : List Char} (h : named part ++ rest = named part' ++ rest') :
    part = part' := by
  simp only [named, List.append_assoc, List.cons_append] at h
  have hread : Nat.toDigits 10 (units part) = Nat.toDigits 10 (units part') ∧
      part ++ rest = part' ++ rest' := by
    rcases Fork.append_terminator h with hread | ⟨m, hm, -⟩ | ⟨m, hm, -⟩
    · exact hread
    · exact absurd (hm ▸ List.mem_append_right _ (List.mem_cons_self ..)) (colon_toDigits (units part'))
    · exact absurd (hm ▸ List.mem_append_right _ (List.mem_cons_self ..)) (colon_toDigits (units part))
  have hunits := toDigits_injective hread.1
  rcases List.append_eq_append_iff.mp hread.2 with ⟨m, rfl, -⟩ | ⟨m, rfl, -⟩
  · rw [units_append] at hunits
    rw [eq_nil_of_units (by omega : units m = 0), List.append_nil]
  · rw [units_append] at hunits
    rw [eq_nil_of_units (by omega : units m = 0), List.append_nil]

theorem name_injective {parts others : List (List Char)} (h : name parts = name others) :
    parts = others := by
  by_contra hne
  have hnamed : ∀ part, named part ≠ [] := fun part hnil =>
    List.cons_ne_nil _ _ (List.append_eq_nil_iff.mp hnil).2
  obtain ⟨before, a, b, after, after', -, -, hab, hfork⟩ := Fork.exists_fork hnamed h hne
  exact hab (named_append hfork)

structure Ask where
  member : List Char
  args : List Value

namespace Hashing
variable {κ : Type*} (hashing : Hashing κ)

/-- `asked`: the member, and a digest of what it was asked -/
def asked (ask : Ask) : List Char := ask.member ++ ':' :: fingerprint hashing.sha1 ask.args

/-- `derive`, of the run, what is asked of it and how many times it was asked before -/
def derive (id asked : List Char) (count : ℕ) : κ :=
  hashing.uuid (name [id, asked, Nat.toDigits 10 count])

theorem derive_inj {id asked asked' : List Char} {count count' : ℕ}
    (h : hashing.derive id asked count = hashing.derive id asked' count') :
    asked = asked' ∧ count = count' := by
  have hparts := name_injective (hashing.uuid_injective h)
  simp only [List.cons.injEq, and_true, true_and] at hparts
  exact ⟨hparts.1, toDigits_injective hparts.2⟩

theorem colon_fingerprint (args : List Value) : ':' ∉ fingerprint hashing.sha1 args :=
  hashing.sha1_hex (write (.array args))

theorem asked_inj {ask other : Ask} (h : hashing.asked ask = hashing.asked other) :
    ask.member = other.member ∧
      fingerprint hashing.sha1 ask.args = fingerprint hashing.sha1 other.args := by
  rcases Fork.append_terminator h with hboth | ⟨m, -, hm⟩ | ⟨m, -, hm⟩
  · exact hboth
  · exact absurd (hm ▸ List.mem_append_right _ (List.mem_cons_self ..))
      (hashing.colon_fingerprint ask.args)
  · exact absurd (hm ▸ List.mem_append_right _ (List.mem_cons_self ..))
      (hashing.colon_fingerprint other.args)

theorem same_of_asked {ask other : Ask} (htold : ask.member = other.member → Told ask.args other.args)
    (h : hashing.asked ask = hashing.asked other) :
    ask.member = other.member ∧ Same ask.args other.args := by
  obtain ⟨hmember, hdigest⟩ := hashing.asked_inj h
  exact ⟨hmember, (htold hmember).same hashing.sha1_injective hdigest⟩

end Hashing

end Toa.Continuity
