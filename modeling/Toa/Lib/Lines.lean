import Toa.Lib.Words

/-! Lines of a text that comes in pieces: what a piece ends with is kept for the next one. -/

namespace Lines
variable {α : Type*} [DecidableEq α] (sep : α)

def lines : List α → List (List α) → List (List α) × List α
  | rest, [] => ([], rest)
  | rest, piece :: pieces =>
    let parts := (rest ++ piece).splitOn sep
    let (more, last) := lines (parts.getLastD []) pieces
    (parts.dropLast ++ more, last)

def closed (ls : List (List α)) : List α := ls.flatMap (· ++ [sep])

variable {sep}

omit [DecidableEq α] in
theorem closed_append (ls ms : List (List α)) : closed sep (ls ++ ms) = closed sep ls ++ closed sep ms :=
  List.flatMap_append

theorem splitOn_closed_append {ls : List (List α)} {u : List α} (hls : ∀ l ∈ ls, sep ∉ l) (hu : sep ∉ u) :
    (closed sep ls ++ u).splitOn sep = ls ++ [u] := by
  induction ls with
  | nil => simpa [closed] using List.splitOn_eq_singleton hu
  | cons l ls ih =>
    have htail := ih fun m hm => hls m (List.mem_cons_of_mem _ hm)
    rw [closed, List.flatMap_cons, List.append_assoc, List.append_assoc, List.singleton_append,
      List.splitOn_append_cons_self_of_not_mem (hls l (List.mem_cons_self ..))]
    exact congrArg (l :: ·) htail

theorem closed_append_inj {ls ms : List (List α)} {u v : List α} (hls : ∀ l ∈ ls, sep ∉ l)
    (hms : ∀ m ∈ ms, sep ∉ m) (hu : sep ∉ u) (hv : sep ∉ v) (h : closed sep ls ++ u = closed sep ms ++ v) :
    ls = ms ∧ u = v := by
  have hsplit := congrArg (List.splitOn sep) h
  rw [splitOn_closed_append hls hu, splitOn_closed_append hms hv] at hsplit
  exact List.append_inj' hsplit rfl |>.imp_right fun htail => (List.cons.inj htail).1

theorem exists_closed (text : List α) :
    ∃ ls u, text = closed sep ls ++ u ∧ (∀ l ∈ ls, sep ∉ l) ∧ sep ∉ u := by
  induction text with
  | nil => exact ⟨[], [], rfl, fun _ h => (by cases h), List.not_mem_nil⟩
  | cons a text ih =>
    obtain ⟨ls, u, rfl, hls, hu⟩ := ih
    by_cases ha : a = sep
    · subst ha
      refine ⟨[] :: ls, u, rfl, fun l hl => ?_, hu⟩
      obtain rfl | hl := List.mem_cons.mp hl
      · exact List.not_mem_nil
      · exact hls l hl
    · have hne : sep ≠ a := Ne.symm ha
      cases ls with
      | nil => exact ⟨[], a :: u, rfl, hls, by simp [hne, hu]⟩
      | cons l ls =>
        refine ⟨(a :: l) :: ls, u, rfl, fun m hm => ?_, hu⟩
        obtain rfl | hm := List.mem_cons.mp hm
        · simp [hne, hls l (List.mem_cons_self ..)]
        · exact hls m (List.mem_cons_of_mem _ hm)

theorem lines_of_closed {rest : List α} (hrest : sep ∉ rest) {pieces ls : List (List α)} {u : List α}
    (hls : ∀ l ∈ ls, sep ∉ l) (hu : sep ∉ u) (h : rest ++ pieces.flatten = closed sep ls ++ u) :
    lines sep rest pieces = (ls, u) := by
  induction pieces generalizing rest ls with
  | nil =>
    have heq : closed sep [] ++ rest = closed sep ls ++ u := by
      rw [← h, List.flatten_nil, List.append_nil]
      rfl
    obtain ⟨rfl, rfl⟩ := closed_append_inj (fun _ h => (by cases h)) hls hrest hu heq
    rfl
  | cons piece pieces ih =>
    obtain ⟨front, open', hfront, hfree, hopen⟩ := @exists_closed _ _ sep (rest ++ piece)
    obtain ⟨more, last, hmore, hfree', hlast⟩ := @exists_closed _ _ sep (open' ++ pieces.flatten)
    have hwhole : closed sep (front ++ more) ++ last = closed sep ls ++ u := by
      rw [closed_append, List.append_assoc, ← hmore, ← List.append_assoc, ← hfront, ← h, List.flatten_cons,
        List.append_assoc]
    have hall : ∀ l ∈ front ++ more, sep ∉ l := fun l hl =>
      (List.mem_append.mp hl).elim (hfree l) (hfree' l)
    obtain ⟨rfl, rfl⟩ := closed_append_inj hall hls hlast hu hwhole
    have hparts : (rest ++ piece).splitOn sep = front ++ [open'] := by
      rw [hfront, splitOn_closed_append hfree hopen]
    rw [lines, hparts, List.getLastD_concat, ih hopen hfree' hmore, List.dropLast_concat]

theorem closed_of_prefix {text : List α} {ls : List (List α)} (h : text <+: closed sep ls)
    (hls : ∀ l ∈ ls, sep ∉ l) : ∃ k u, text = closed sep (ls.take k) ++ u ∧ sep ∉ u := by
  obtain ⟨front, u, rfl, hfree, hu⟩ := @exists_closed _ _ sep text
  obtain ⟨after, hafter⟩ := h
  obtain ⟨more, last, hmore, hfree', hlast⟩ := @exists_closed _ _ sep (u ++ after)
  have hwhole : closed sep (front ++ more) ++ last = closed sep ls ++ [] := by
    rw [closed_append, List.append_assoc, ← hmore, ← List.append_assoc, hafter, List.append_nil]
  have hall : ∀ l ∈ front ++ more, sep ∉ l := fun l hl => (List.mem_append.mp hl).elim (hfree l) (hfree' l)
  obtain ⟨rfl, -⟩ := closed_append_inj hall hls hlast List.not_mem_nil hwhole
  exact ⟨front.length, u, by rw [List.take_left], hu⟩

theorem count_closed {ls : List (List α)} (hls : ∀ l ∈ ls, sep ∉ l) : (closed sep ls).count sep = ls.length := by
  induction ls with
  | nil => rfl
  | cons l ls ih =>
    have hl : l.count sep = 0 := List.count_eq_zero.mpr (hls l (List.mem_cons_self ..))
    have htail := ih fun m hm => hls m (List.mem_cons_of_mem _ hm)
    rw [closed, List.flatMap_cons, List.count_append, List.count_append, hl, List.count_singleton_self]
    rw [closed] at htail
    rw [htail, List.length_cons, Nat.zero_add, Nat.add_comm]

end Lines
