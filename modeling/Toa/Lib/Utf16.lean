import Mathlib.Algebra.GroupWithZero.Nat
import Mathlib.Data.List.Basic
import Mathlib.Tactic.SplitIfs

/-! Strings as code units, and the characters they are read as: a surrogate with no pair is read as a
replacement. -/

namespace Utf16

def high (u : UInt16) : Bool := decide (0xD800 ≤ u.toNat ∧ u.toNat < 0xDC00)

def low (u : UInt16) : Bool := decide (0xDC00 ≤ u.toNat ∧ u.toNat < 0xE000)

def pair (h l : UInt16) : Char := Char.ofNat (0x10000 + (h.toNat - 0xD800) * 0x400 + (l.toNat - 0xDC00))

def single (u : UInt16) : Char := if high u || low u then '\uFFFD' else Char.ofNat u.toNat

def chars : List UInt16 → List Char
  | [] => []
  | [u] => [single u]
  | h :: l :: us => if high h && low l then pair h l :: chars us else single h :: chars (l :: us)

def wellFormed : List UInt16 → Bool
  | [] => true
  | [u] => !(high u || low u)
  | h :: l :: us => if high h && low l then wellFormed us else !(high h || low h) && wellFormed (l :: us)

def width (c : Char) : ℕ := if c.toNat < 0x10000 then 1 else 2

def units (c : Char) : List UInt16 :=
  if c.toNat < 0x10000 then [UInt16.ofNat c.toNat]
  else [UInt16.ofNat (0xD800 + (c.toNat - 0x10000) / 0x400), UInt16.ofNat (0xDC00 + (c.toNat - 0x10000) % 0x400)]

def ascii (cs : List Char) : List UInt16 := cs.map fun c => UInt16.ofNat c.toNat

theorem high_iff {u : UInt16} : high u = true ↔ 0xD800 ≤ u.toNat ∧ u.toNat < 0xDC00 := decide_eq_true_iff

theorem low_iff {u : UInt16} : low u = true ↔ 0xDC00 ≤ u.toNat ∧ u.toNat < 0xE000 := decide_eq_true_iff

theorem toNat_ofNat {n : ℕ} (h : n < 0xD800 ∨ 0xDFFF < n ∧ n < 0x110000) : (Char.ofNat n).toNat = n := by
  have hvalid : n.isValidChar := h
  rw [Char.ofNat, dif_pos hvalid]
  rfl

theorem toNat_pair {h l : UInt16} (hh : high h = true) (hl : low l = true) :
    (pair h l).toNat = 0x10000 + (h.toNat - 0xD800) * 0x400 + (l.toNat - 0xDC00) := by
  have hhigh := high_iff.mp hh
  have hlow := low_iff.mp hl
  exact toNat_ofNat (by omega)

theorem toNat_single {u : UInt16} (h : (high u || low u) = false) : (single u).toNat = u.toNat := by
  obtain ⟨hhigh, hlow⟩ := Bool.or_eq_false_iff.mp h
  have hu := u.toNat_lt
  rw [single, h, if_neg Bool.false_ne_true]
  simp only [high, low, decide_eq_false_iff_not] at hhigh hlow
  exact toNat_ofNat (by omega)

theorem width_pair {h l : UInt16} (hh : high h = true) (hl : low l = true) : width (pair h l) = 2 := by
  rw [width, toNat_pair hh hl, if_neg (by omega)]

theorem width_single (u : UInt16) : width (single u) = 1 := by
  have hu := u.toNat_lt
  cases hs : high u || low u with
  | false => rw [width, toNat_single hs, if_pos (by omega)]
  | true =>
    rw [single, hs]
    rfl

theorem sum_width_chars (us : List UInt16) : ((chars us).map width).sum = us.length := by
  have hcons : ∀ c cs, ((c :: cs).map width).sum = width c + (cs.map width).sum := fun _ _ => rfl
  fun_induction chars us with
  | case1 => rfl
  | case2 u => rw [List.map_singleton, width_single]; rfl
  | case3 h l us hpair ih =>
    obtain ⟨hh, hl⟩ := Bool.and_eq_true_iff.mp hpair
    simp only [hcons, width_pair hh hl, ih, List.length_cons]
    omega
  | case4 h l us hpair ih =>
    simp only [hcons, width_single, ih, List.length_cons]
    omega

theorem chars_cons_of_single {u : UInt16} {us : List UInt16}
    (h : ∀ v, us.head? = some v → (high u && low v) = false) : chars (u :: us) = single u :: chars us := by
  cases us with
  | nil => rfl
  | cons v us => rw [chars, h v rfl, if_neg Bool.false_ne_true]

theorem chars_append (us : List UInt16) {vs : List UInt16} (h : ∀ v, vs.head? = some v → low v = false) :
    chars (us ++ vs) = chars us ++ chars vs := by
  fun_induction chars us with
  | case1 => rfl
  | case2 u => exact chars_cons_of_single fun v hv => by rw [h v hv, Bool.and_false]
  | case3 h l us hpair ih =>
    rw [List.cons_append, List.cons_append, chars, if_pos hpair, ih, List.cons_append]
  | case4 h l us hpair ih =>
    rw [List.cons_append, List.cons_append, chars, if_neg hpair, ← List.cons_append, ih, List.cons_append]

theorem toNat_ascii {c : Char} (h : c.toNat < 0x80) : (UInt16.ofNat c.toNat).toNat = c.toNat := by
  rw [UInt16.toNat_ofNat']
  exact Nat.mod_eq_of_lt (by omega)

theorem surrogate_ascii {c : Char} (h : c.toNat < 0x80) :
    (high (UInt16.ofNat c.toNat) || low (UInt16.ofNat c.toNat)) = false := by
  simp only [high, low, toNat_ascii h, Bool.or_eq_false_iff, decide_eq_false_iff_not]
  omega

theorem single_ascii {c : Char} (h : c.toNat < 0x80) : single (UInt16.ofNat c.toNat) = c := by
  apply Char.toNat_inj.mp
  rw [toNat_single (surrogate_ascii h), toNat_ascii h]

theorem low_ascii {cs : List Char} (h : ∀ c ∈ cs, c.toNat < 0x80) : ∀ u ∈ ascii cs, low u = false := by
  intro u hu
  obtain ⟨c, hc, rfl⟩ := List.mem_map.mp hu
  exact (Bool.or_eq_false_iff.mp (surrogate_ascii (h c hc))).2

theorem chars_ascii_append {cs : List Char} (h : ∀ c ∈ cs, c.toNat < 0x80) (us : List UInt16) :
    chars (ascii cs ++ us) = cs ++ chars us := by
  induction cs with
  | nil => rfl
  | cons c cs ih =>
    have hc := h c List.mem_cons_self
    have hhigh := (Bool.or_eq_false_iff.mp (surrogate_ascii hc)).1
    have hcons : chars (ascii (c :: cs) ++ us) = single (UInt16.ofNat c.toNat) :: chars (ascii cs ++ us) :=
      chars_cons_of_single fun v _ => by rw [hhigh, Bool.false_and]
    rw [hcons, single_ascii hc, ih fun d hd => h d (List.mem_cons_of_mem _ hd), List.cons_append]

theorem units_pair {h l : UInt16} (hh : high h = true) (hl : low l = true) : units (pair h l) = [h, l] := by
  have hhigh := high_iff.mp hh
  have hlow := low_iff.mp hl
  have hwide : ¬(pair h l).toNat < 0x10000 := by rw [toNat_pair hh hl]; omega
  rw [units, if_neg hwide, toNat_pair hh hl]
  have hfirst : 0xD800 + (0x10000 + (h.toNat - 0xD800) * 0x400 + (l.toNat - 0xDC00) - 0x10000) / 0x400 =
      h.toNat := by omega
  have hsecond : 0xDC00 + (0x10000 + (h.toNat - 0xD800) * 0x400 + (l.toNat - 0xDC00) - 0x10000) % 0x400 =
      l.toNat := by omega
  rw [hfirst, hsecond, UInt16.ofNat_toNat, UInt16.ofNat_toNat]

theorem units_single {u : UInt16} (h : (high u || low u) = false) : units (single u) = [u] := by
  have hu := u.toNat_lt
  rw [units, toNat_single h, if_pos (by omega), UInt16.ofNat_toNat]

theorem flatMap_units_chars {us : List UInt16} (h : wellFormed us = true) : (chars us).flatMap units = us := by
  fun_induction chars us with
  | case1 => rfl
  | case2 u =>
    have hplain : (high u || low u) = false := by simpa [wellFormed] using h
    rw [List.flatMap_singleton, units_single hplain]
  | case3 h' l us hpair ih =>
    obtain ⟨hh, hl⟩ := Bool.and_eq_true_iff.mp hpair
    rw [wellFormed, if_pos hpair] at h
    rw [List.flatMap_cons, units_pair hh hl, ih h]
    rfl
  | case4 h' l us hpair ih =>
    rw [wellFormed, if_neg hpair] at h
    obtain ⟨hplain, hrest⟩ := Bool.and_eq_true_iff.mp h
    rw [List.flatMap_cons, units_single (by simpa using hplain), ih hrest]
    rfl

theorem chars_inj {us vs : List UInt16} (hus : wellFormed us = true) (hvs : wellFormed vs = true)
    (h : chars us = chars vs) : us = vs := by
  rw [← flatMap_units_chars hus, h, flatMap_units_chars hvs]

/-! ## The order of strings -/

def codeUnits (s : List Char) : List ℕ := s.flatMap fun c => (units c).map UInt16.toNat

def byUnits (s t : List Char) : Ordering := (codeUnits s).compareLex compare (codeUnits t)

def byPoints (s t : List Char) : Ordering := (s.map Char.toNat).compareLex compare (t.map Char.toNat)

/-- Whether one character takes a surrogate pair and the other follows every surrogate. -/
def crosses (c d : Char) : Bool := 0x10000 ≤ c.toNat && (0xE000 ≤ d.toNat && d.toNat < 0x10000)

/-- Whether the first characters that strings differ in are ordered alike by units and by points. -/
def alike : List Char → List Char → Bool
  | c :: s, d :: t => if c = d then alike s t else !crosses c d && !crosses d c
  | _, _ => true

theorem toNat_lt (c : Char) : c.toNat < 0x110000 := by
  rcases c.valid with h | h
  · exact Nat.lt_trans h (by decide)
  · exact h.2

theorem toNat_units (c : Char) : (units c).map UInt16.toNat =
    if c.toNat < 0x10000 then [c.toNat]
    else [0xD800 + (c.toNat - 0x10000) / 0x400, 0xDC00 + (c.toNat - 0x10000) % 0x400] := by
  have hc := toNat_lt c
  rw [units]
  split_ifs with hwide
  · rw [List.map_singleton, UInt16.toNat_ofNat', Nat.mod_eq_of_lt (by omega)]
  · have hfirst : 0xD800 + (c.toNat - 0x10000) / 0x400 < 2 ^ 16 := by omega
    have hsecond : 0xDC00 + (c.toNat - 0x10000) % 0x400 < 2 ^ 16 := by omega
    rw [List.map_cons, List.map_singleton, UInt16.toNat_ofNat', UInt16.toNat_ofNat',
      Nat.mod_eq_of_lt hfirst, Nat.mod_eq_of_lt hsecond]

theorem surrogate_free (c : Char) : c.toNat < 0xD800 ∨ 0xE000 ≤ c.toNat := by
  rcases c.valid with h | h
  · exact .inl h
  · exact .inr h.1

theorem compareLex_append (us vs ws : List ℕ) :
    (us ++ vs).compareLex compare (us ++ ws) = vs.compareLex compare ws := by
  induction us with
  | nil => rfl
  | cons u us ih =>
    rw [List.cons_append, List.cons_append, List.compareLex_cons_cons, ih, Nat.compare_eq_eq.mpr rfl]
    rfl

theorem compareLex_of_lt {a b : ℕ} (h : a < b) (us vs : List ℕ) :
    (a :: us).compareLex compare (b :: vs) = .lt := by
  rw [List.compareLex_cons_cons, Nat.compare_eq_lt.mpr h]
  rfl

theorem compareLex_of_gt {a b : ℕ} (h : b < a) (us vs : List ℕ) :
    (a :: us).compareLex compare (b :: vs) = .gt := by
  rw [List.compareLex_cons_cons, Nat.compare_eq_gt.mpr h]
  rfl

theorem codeUnits_lt {c d : Char} (h : c.toNat < d.toNat) (hcross : crosses d c = false) (us vs : List ℕ) :
    ((units c).map UInt16.toNat ++ us).compareLex compare ((units d).map UInt16.toNat ++ vs) = .lt := by
  have hd := surrogate_free c
  simp only [crosses, Bool.and_eq_false_iff, decide_eq_false_iff_not] at hcross
  rw [toNat_units, toNat_units]
  split_ifs with hc hwide hwide
  · exact compareLex_of_lt h us vs
  · exact compareLex_of_lt (by omega) us _
  · omega
  · -- both take a pair: the first surrogates differ, or the second do
    rcases Nat.lt_or_ge ((c.toNat - 0x10000) / 0x400) ((d.toNat - 0x10000) / 0x400) with hfirst | hfirst
    · exact compareLex_of_lt (by omega) _ _
    · have heq : (c.toNat - 0x10000) / 0x400 = (d.toNat - 0x10000) / 0x400 := by omega
      rw [heq]
      simp only [List.cons_append, List.nil_append]
      have hsecond := compareLex_append [0xD800 + (d.toNat - 0x10000) / 0x400]
      simp only [List.cons_append, List.nil_append] at hsecond
      rw [hsecond]
      exact compareLex_of_lt (by omega) us vs

theorem codeUnits_gt {c d : Char} (h : d.toNat < c.toNat) (hcross : crosses c d = false) (us vs : List ℕ) :
    ((units c).map UInt16.toNat ++ us).compareLex compare ((units d).map UInt16.toNat ++ vs) = .gt := by
  rw [@Std.OrientedCmp.eq_swap _ (List.compareLex compare), codeUnits_lt h hcross]
  rfl

theorem crosses_units {c d : Char} (h : crosses c d = true) (us vs : List ℕ) :
    ((units c).map UInt16.toNat ++ us).compareLex compare ((units d).map UInt16.toNat ++ vs) = .lt ∧
      ((units d).map UInt16.toNat ++ vs).compareLex compare ((units c).map UInt16.toNat ++ us) = .gt := by
  have hc := toNat_lt c
  simp only [crosses, Bool.and_eq_true, decide_eq_true_eq] at h
  rw [toNat_units, toNat_units, if_neg (by omega), if_pos h.2.2]
  exact ⟨compareLex_of_lt (by omega) _ _, compareLex_of_gt (by omega) _ _⟩

theorem codeUnits_cons (c : Char) (s : List Char) :
    codeUnits (c :: s) = (units c).map UInt16.toNat ++ codeUnits s := List.flatMap_cons

theorem byUnits_nil_cons (c : Char) (s : List Char) : byUnits [] (c :: s) = .lt := by
  rw [byUnits, codeUnits_cons, toNat_units]
  split_ifs <;> rfl

theorem byUnits_cons_nil (c : Char) (s : List Char) : byUnits (c :: s) [] = .gt := by
  rw [byUnits, codeUnits_cons, toNat_units]
  split_ifs <;> rfl

theorem byUnits_cases (s t : List Char) :
    alike s t = true ∧ byUnits s t = byPoints s t ∨
      alike s t = false ∧
        (byUnits s t = .lt ∧ byPoints s t = .gt ∨ byUnits s t = .gt ∧ byPoints s t = .lt) := by
  induction s generalizing t with
  | nil =>
    cases t with
    | nil => exact .inl ⟨rfl, rfl⟩
    | cons d t => exact .inl ⟨rfl, byUnits_nil_cons d t⟩
  | cons c s ih =>
    cases t with
    | nil => exact .inl ⟨rfl, byUnits_cons_nil c s⟩
    | cons d t =>
      by_cases hsame : c = d
      · subst hsame
        have hunits : byUnits (c :: s) (c :: t) = byUnits s t := by
          rw [byUnits, codeUnits_cons, codeUnits_cons, compareLex_append]
          rfl
        have hpoints : byPoints (c :: s) (c :: t) = byPoints s t := compareLex_append [c.toNat] _ _
        rw [hunits, hpoints, alike, if_pos rfl]
        exact ih t
      · have hne : c.toNat ≠ d.toNat := fun h => hsame (Char.toNat_inj.mp h)
        rw [alike, if_neg hsame, byUnits, codeUnits_cons, codeUnits_cons, byPoints, List.map_cons,
          List.map_cons]
        -- the first characters decide both orders, unless one is a pair and the other follows all pairs
        cases hcd : crosses c d with
        | true =>
          have hgt : d.toNat < c.toNat := by
            simp only [crosses, Bool.and_eq_true, decide_eq_true_eq] at hcd
            omega
          exact .inr ⟨rfl, .inl ⟨(crosses_units hcd _ _).1, compareLex_of_gt hgt _ _⟩⟩
        | false =>
          cases hdc : crosses d c with
          | true =>
            have hlt : c.toNat < d.toNat := by
              simp only [crosses, Bool.and_eq_true, decide_eq_true_eq] at hdc
              omega
            exact .inr ⟨rfl, .inr ⟨(crosses_units hdc _ _).2, compareLex_of_lt hlt _ _⟩⟩
          | false =>
            refine .inl ⟨rfl, ?_⟩
            rcases Nat.lt_or_gt_of_ne hne with hlt | hgt
            · rw [codeUnits_lt hlt hdc, compareLex_of_lt hlt]
            · rw [codeUnits_gt hgt hcd, compareLex_of_gt hgt]

end Utf16
