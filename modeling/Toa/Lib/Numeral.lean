import Mathlib.Data.Nat.Digits.Defs

/-! Numerals, the most significant digit first, and what they are less the zeros before them. -/

namespace Numeral

variable {b : ℕ}

def value (b : ℕ) (digits : List ℕ) : ℕ := Nat.ofDigits b digits.reverse

theorem value_append (l m : List ℕ) :
    value b (l ++ m) = value b l * b ^ m.length + value b m := by
  rw [value, value, value, List.reverse_append, Nat.ofDigits_append, List.length_reverse]
  ring

theorem value_lt (hb : 1 < b) {l : List ℕ} (h : ∀ d ∈ l, d < b) : value b l < b ^ l.length := by
  rw [value, ← List.length_reverse]
  exact Nat.ofDigits_lt_base_pow_length hb fun d hd => h d (List.mem_reverse.mp hd)

theorem value_append_div (hb : 1 < b) {l m : List ℕ} (h : ∀ d ∈ m, d < b) :
    value b (l ++ m) / b ^ m.length = value b l := by
  have hpos : 0 < b ^ m.length := Nat.pow_pos (by omega)
  rw [value_append, Nat.add_comm, Nat.add_mul_div_right _ _ hpos, Nat.div_eq_of_lt (value_lt hb h),
    Nat.zero_add]

theorem value_inj (hb : 1 < b) {l m : List ℕ} (hlength : l.length = m.length)
    (hl : ∀ d ∈ l, d < b) (hm : ∀ d ∈ m, d < b) (h : value b l = value b m) : l = m := by
  have hreverse := Nat.ofDigits_inj_of_len_eq hb (by simpa using hlength)
    (fun d hd => hl d (List.mem_reverse.mp hd)) (fun d hd => hm d (List.mem_reverse.mp hd)) h
  exact List.reverse_inj.mp hreverse

theorem value_replicate_zero (n : ℕ) : value b (List.replicate n 0) = 0 := by
  have h := Nat.ofDigits_append_replicate_zero (b := b) (k := n) []
  rwa [value, List.reverse_replicate, ← List.nil_append (List.replicate n 0)]

section Strip
variable {α : Type*} [DecidableEq α] {zero : α} {digit : α → ℕ}

/-- Less the zeros before it, and `zero` where there is nothing else. -/
def strip (zero : α) : List α → List α
  | c :: d :: rest => if c = zero then strip zero (d :: rest) else c :: d :: rest
  | l => l

theorem strip_suffix (l : List α) : strip zero l <:+ l := by
  induction l using strip.induct zero with
  | case1 d rest ih =>
    rw [strip, if_pos rfl]
    exact ih.trans (List.suffix_cons _ _)
  | case2 c d rest h => exact ⟨[], by rw [List.nil_append, strip, if_neg h]⟩
  | case3 l h =>
    unfold strip
    split
    · exact absurd rfl (h _ _ _)
    · exact List.suffix_rfl

theorem strip_ne_nil {l : List α} (h : l ≠ []) : strip zero l ≠ [] := by
  induction l using strip.induct zero with
  | case1 d rest ih =>
    rw [strip, if_pos rfl]
    exact ih (List.cons_ne_nil _ _)
  | case2 c d rest hc =>
    rw [strip, if_neg hc]
    exact h
  | case3 l hl =>
    unfold strip
    split
    · exact absurd rfl (hl _ _ _)
    · exact h

theorem strip_append {zero c : α} (hc : c ≠ zero) (l m : List α) :
    ∃ l', l' <:+ l ∧ strip zero (l ++ c :: m) = l' ++ c :: m := by
  induction l with
  | nil =>
    refine ⟨[], List.suffix_rfl, ?_⟩
    cases m with
    | nil => rfl
    | cons d m => rw [List.nil_append, strip, if_neg hc]
  | cons a l ih =>
    by_cases ha : a = zero
    · obtain ⟨l', hsuffix, hstrip⟩ := ih
      refine ⟨l', hsuffix.trans (List.suffix_cons _ _), ?_⟩
      rw [← hstrip]
      cases l with
      | nil => rw [List.cons_append, List.nil_append, strip, if_pos ha]
      | cons d l => rw [List.cons_append, List.cons_append, strip, if_pos ha]
    · refine ⟨a :: l, List.suffix_rfl, ?_⟩
      cases l with
      | nil => rw [List.cons_append, List.nil_append, strip, if_neg ha]
      | cons d l => rw [List.cons_append, List.cons_append, strip, if_neg ha]

theorem strip_of_head {c : α} (hc : c ≠ zero) (l : List α) : strip zero (c :: l) = c :: l := by
  cases l with
  | nil => rfl
  | cons d l => rw [strip, if_neg hc]

theorem map_strip (hb : 1 < b) {l : List α} (hl : l ≠ [])
    (hzero : ∀ c ∈ l, digit c = 0 ↔ c = zero) (hdigit : ∀ c ∈ l, digit c < b) :
    (strip zero l).map digit = if value b (l.map digit) = 0 then [0]
      else (Nat.digits b (value b (l.map digit))).reverse := by
  induction l using strip.induct zero with
  | case1 d rest ih =>
    have hvalue : value b ((zero :: d :: rest).map digit) = value b ((d :: rest).map digit) := by
      have h0 : digit zero = 0 := (hzero zero List.mem_cons_self).mpr rfl
      rw [List.map_cons, h0, ← List.singleton_append, value_append]
      simp [value]
    rw [hvalue, strip, if_pos rfl]
    exact ih (List.cons_ne_nil _ _) (fun c hc => hzero c (List.mem_cons_of_mem _ hc))
      (fun c hc => hdigit c (List.mem_cons_of_mem _ hc))
  | case2 c d rest hc =>
    have hdigits : Nat.digits b (value b ((c :: d :: rest).map digit)) =
        ((c :: d :: rest).map digit).reverse := by
      refine Nat.digits_ofDigits b hb _ ?_ ?_
      · intro n hn
        obtain ⟨a, ha, rfl⟩ := List.mem_map.mp (List.mem_reverse.mp hn)
        exact hdigit a ha
      · intro _
        simp only [List.map_cons, List.getLast_reverse, List.head_cons]
        exact fun h => hc ((hzero c List.mem_cons_self).mp h)
    have hne : value b ((c :: d :: rest).map digit) ≠ 0 := by
      intro h
      rw [h, Nat.digits_zero] at hdigits
      simp at hdigits
    rw [strip, if_neg hc, if_neg hne, hdigits, List.reverse_reverse]
  | case3 l h =>
    match l, h with
    | [], _ => exact absurd rfl hl
    | [c], _ =>
      have hc := hdigit c List.mem_cons_self
      simp only [strip, List.map_cons, List.map_nil, value, List.reverse_singleton,
        Nat.ofDigits_singleton]
      split
      · rename_i h0
        rw [h0]
      · rename_i h0
        rw [Nat.digits_of_lt b _ h0 hc, List.reverse_singleton]
    | c :: d :: rest, h => exact absurd rfl (h c d rest)

theorem value_strip (hb : 1 < b) {l : List α} (hl : l ≠ [])
    (hzero : ∀ c ∈ l, digit c = 0 ↔ c = zero) (hdigit : ∀ c ∈ l, digit c < b) :
    value b ((strip zero l).map digit) = value b (l.map digit) := by
  rw [map_strip hb hl hzero hdigit]
  split
  · rename_i h
    rw [h]
    rfl
  · rw [value, List.reverse_reverse, Nat.ofDigits_digits]

end Strip

end Numeral
