import Mathlib.Data.List.Basic

/-! Words with a separator between them, and a text split where it stands, or where it stands
twice. -/

namespace Words

variable {α : Type*} [DecidableEq α] {sep : α}

def Word (sep : α) (w : List α) : Prop := w ≠ [] ∧ sep ∉ w

theorem modifyHead_append_nil {β : Type*} (ls : List (List β)) : ls.modifyHead ([] ++ ·) = ls :=
  congrFun List.modifyHead_id ls

def splitPairs (sep : α) : List α → List (List α)
  | [] => [[]]
  | [a] => [[a]]
  | a :: b :: l =>
    if a = sep ∧ b = sep then [] :: splitPairs sep l
    else (splitPairs sep (b :: l)).modifyHead (a :: ·)

theorem splitPairs_ne_nil (sep : α) (l : List α) : splitPairs sep l ≠ [] := by
  induction l using splitPairs.induct sep with
  | case1 => nofun
  | case2 a => nofun
  | case3 a b l h ih => simp [splitPairs, h]
  | case4 a b l h ih => simpa [splitPairs, h] using ih

@[simp] theorem splitPairs_pair (l : List α) :
    splitPairs sep (sep :: sep :: l) = [] :: splitPairs sep l := by
  rw [splitPairs, if_pos ⟨rfl, rfl⟩]

theorem splitPairs_cons {a : α} (ha : a ≠ sep) (l : List α) :
    splitPairs sep (a :: l) = (splitPairs sep l).modifyHead (a :: ·) := by
  cases l with
  | nil => rfl
  | cons b l => rw [splitPairs, if_neg fun h => ha h.1]

theorem splitPairs_sep_cons {b : α} (hb : b ≠ sep) (l : List α) :
    splitPairs sep (sep :: b :: l) = (splitPairs sep (b :: l)).modifyHead (sep :: ·) := by
  rw [splitPairs, if_neg fun h => hb h.2]

theorem splitPairs_append {w : List α} (hw : sep ∉ w) (l : List α) :
    splitPairs sep (w ++ l) = (splitPairs sep l).modifyHead (w ++ ·) := by
  induction w with
  | nil => exact (modifyHead_append_nil _).symm
  | cons a w ih =>
    simp only [List.mem_cons, not_or] at hw
    rw [List.cons_append, splitPairs_cons (Ne.symm hw.1), ih hw.2, List.modifyHead_modifyHead]
    rfl

theorem splitPairs_intercalate {ws : List (List α)} (hws : ∀ w ∈ ws, Word sep w) (l : List α) :
    splitPairs sep ([sep].intercalate ws ++ l) =
      (splitPairs sep l).modifyHead ([sep].intercalate ws ++ ·) := by
  induction ws with
  | nil => exact (modifyHead_append_nil _).symm
  | cons w ws ih =>
    have hw := (hws w List.mem_cons_self).2
    have hrest := fun v hv => hws v (List.mem_cons_of_mem _ hv)
    cases ws with
    | nil => simpa using splitPairs_append hw l
    | cons v ws =>
      obtain ⟨hne, hv⟩ := hws v (List.mem_cons_of_mem _ List.mem_cons_self)
      obtain ⟨b, v', rfl⟩ := List.exists_cons_of_ne_nil hne
      have hb : b ≠ sep := fun h => hv (h ▸ List.mem_cons_self)
      -- the next word starts with what is not the separator
      obtain ⟨m, hm⟩ : ∃ m, [sep].intercalate ((b :: v') :: ws) ++ l = b :: m := by
        cases ws with
        | nil => exact ⟨v' ++ l, by simp⟩
        | cons u us => exact ⟨_, by rw [List.intercalate_cons_cons, List.cons_append,
            List.cons_append, List.cons_append]⟩
      have hsplit := ih hrest
      rw [List.intercalate_cons_cons]
      simp only [List.append_assoc, List.cons_append, List.nil_append]
      rw [splitPairs_append hw, hm, splitPairs_sep_cons hb, ← hm, hsplit,
        List.modifyHead_modifyHead, List.modifyHead_modifyHead]
      rfl

theorem splitPairs_eq_singleton {ws : List (List α)} (hws : ∀ w ∈ ws, Word sep w) {w : List α}
    (hw : sep ∉ w) :
    splitPairs sep ([sep].intercalate (ws ++ [w])) = [[sep].intercalate (ws ++ [w])] := by
  have hend : splitPairs sep (sep :: w) = [sep :: w] := by
    cases w with
    | nil => rfl
    | cons b w =>
      have hb : b ≠ sep := fun h => hw (h ▸ List.mem_cons_self)
      have hsplit := splitPairs_append hw []
      rw [List.append_nil] at hsplit
      rw [splitPairs_sep_cons hb, hsplit]
      simp [splitPairs]
  rcases List.eq_nil_or_concat ws with rfl | ⟨init, v, rfl⟩
  · simpa [splitPairs] using splitPairs_append hw []
  · have hjoin : [sep].intercalate (init.concat v ++ [w]) =
        [sep].intercalate (init.concat v) ++ sep :: w := by
      rw [List.concat_eq_append]
      clear hws
      induction init with
      | nil => simp [List.intercalate_cons_cons]
      | cons u init ih =>
        have hne : init ++ [v] ≠ [] := by simp
        have hne' : init ++ [v] ++ [w] ≠ [] := by simp
        rw [List.cons_append, List.cons_append, List.intercalate_cons_of_ne_nil hne',
          List.intercalate_cons_of_ne_nil hne, ih]
        simp
    rw [hjoin, splitPairs_intercalate hws, hend]
    rfl

theorem intercalate_splitPairs (sep : α) (l : List α) :
    [sep, sep].intercalate (splitPairs sep l) = l := by
  induction l using splitPairs.induct sep with
  | case1 => simp [splitPairs]
  | case2 a => simp [splitPairs]
  | case3 a b l h ih =>
    obtain ⟨rfl, rfl⟩ := h
    rw [splitPairs_pair, List.intercalate_cons_of_ne_nil (splitPairs_ne_nil _ l), ih]
    rfl
  | case4 a b l h ih =>
    rw [splitPairs, if_neg h]
    obtain ⟨w, ws, hws⟩ := List.exists_cons_of_ne_nil (splitPairs_ne_nil sep (b :: l))
    rw [hws] at ih ⊢
    cases ws with
    | nil => simpa using ih
    | cons v ws =>
      rw [List.modifyHead_cons, List.intercalate_cons_cons, List.cons_append, List.cons_append]
      rw [List.intercalate_cons_cons] at ih
      rw [ih]

omit [DecidableEq α] in
theorem mem_intercalate {x : α} {ws : List (List α)} (h : x ∈ [sep].intercalate ws) :
    x = sep ∨ ∃ w ∈ ws, x ∈ w := by
  induction ws with
  | nil => simp at h
  | cons w ws ih =>
    cases ws with
    | nil =>
      rw [List.intercalate_singleton] at h
      exact .inr ⟨w, List.mem_cons_self, h⟩
    | cons v ws =>
      rw [List.intercalate_cons_cons] at h
      rcases List.mem_append.mp h with h | h
      · rcases List.mem_append.mp h with h | h
        · exact .inr ⟨w, List.mem_cons_self, h⟩
        · exact .inl (List.mem_singleton.mp h)
      · exact (ih h).imp_right fun ⟨u, hu, hx⟩ => ⟨u, List.mem_cons_of_mem _ hu, hx⟩

omit [DecidableEq α] in
theorem intercalate_append_cons (sep : α) (ws vs : List (List α)) (w l : List α) :
    ∃ m, [sep].intercalate (ws ++ (w ++ l) :: vs) = [sep].intercalate (ws ++ [w]) ++ l ++ m := by
  induction ws with
  | nil =>
    cases vs with
    | nil => exact ⟨[], by simp⟩
    | cons v vs => exact ⟨_, by rw [List.nil_append, List.nil_append, List.intercalate_cons_cons,
        List.intercalate_singleton, List.append_assoc]⟩
  | cons u ws ih =>
    obtain ⟨m, hm⟩ := ih
    have hne : ws ++ (w ++ l) :: vs ≠ [] := by simp
    have hne' : ws ++ [w] ≠ [] := by simp
    refine ⟨m, ?_⟩
    rw [List.cons_append, List.cons_append, List.intercalate_cons_of_ne_nil hne,
      List.intercalate_cons_of_ne_nil hne', hm]
    simp only [List.append_assoc]

theorem splitOn_append {w : List α} (hw : sep ∉ w) (l : List α) :
    (w ++ l).splitOn sep = (l.splitOn sep).modifyHead (w ++ ·) := by
  induction w with
  | nil => exact (modifyHead_append_nil _).symm
  | cons a w ih =>
    simp only [List.mem_cons, not_or] at hw
    have ha : (a == sep) = false := beq_eq_false_iff_ne.mpr (Ne.symm hw.1)
    rw [List.cons_append, List.splitOn_cons_eq_if_modifyHead, ha, ih hw.2]
    simp [List.modifyHead_modifyHead, Function.comp_def]

theorem length_splitOn (sep : α) (l : List α) : (l.splitOn sep).length = l.count sep + 1 := by
  induction l with
  | nil => rfl
  | cons a l ih =>
    rw [List.splitOn_cons_eq_if_modifyHead, List.count_cons]
    split
    · rw [List.length_cons, ih]
    · rw [List.length_modifyHead, ih, Nat.add_zero]

theorem not_mem_of_mem_splitOn {l w : List α} (h : w ∈ l.splitOn sep) : sep ∉ w := by
  induction l generalizing w with
  | nil =>
    rw [List.splitOn_nil, List.mem_singleton] at h
    rw [h]
    exact List.not_mem_nil
  | cons a l ih =>
    rw [List.splitOn_cons_eq_if_modifyHead] at h
    split at h
    · rcases List.mem_cons.mp h with rfl | h
      · exact List.not_mem_nil
      · exact ih h
    · rename_i ha
      obtain ⟨first, rest, hsplit⟩ := List.exists_cons_of_ne_nil (List.splitOn_ne_nil sep l)
      rw [hsplit] at h ih
      rcases List.mem_cons.mp h with rfl | h
      · rw [List.mem_cons, not_or]
        exact ⟨fun heq => ha (beq_iff_eq.mpr heq.symm), ih List.mem_cons_self⟩
      · exact ih (List.mem_cons_of_mem _ h)

theorem intercalate_concat_inj {α : Type*} {sep w v : List α} {ws : List (List α)}
    (h : sep.intercalate (ws ++ [w]) = sep.intercalate (ws ++ [v])) : w = v := by
  induction ws with
  | nil =>
    rw [List.nil_append, List.nil_append, List.intercalate_singleton, List.intercalate_singleton] at h
    exact h
  | cons u ws ih =>
    rw [List.cons_append, List.cons_append, List.intercalate_cons_of_ne_nil (List.concat_ne_nil w ws),
      List.intercalate_cons_of_ne_nil (List.concat_ne_nil v ws)] at h
    exact ih (List.append_cancel_left h)

theorem splitOn_intercalate_append {ws : List (List α)} {w : List α}
    (hws : ∀ v ∈ ws ++ [w], sep ∉ v) (l : List α) :
    ([sep].intercalate (ws ++ [w]) ++ l).splitOn sep =
      ws ++ (l.splitOn sep).modifyHead (w ++ ·) := by
  induction ws with
  | nil => simpa using splitOn_append (hws w (by simp)) l
  | cons v ws ih =>
    have hne : ws ++ [w] ≠ [] := by simp
    rw [List.cons_append, List.intercalate_cons_of_ne_nil hne]
    simp only [List.append_assoc, List.cons_append, List.nil_append]
    rw [List.splitOn_append_cons_self_of_not_mem (hws v (by simp)),
      ih fun u hu => hws u (List.mem_cons_of_mem _ hu)]

theorem splitOn_intercalate {c : Char} {separator : String} (hseparator : separator.toList = [c])
    {parts : List String} (hparts : parts ≠ []) (h : ∀ part ∈ parts, c ∉ part.toList) :
    ((separator.intercalate parts).toList.splitOn c).map String.ofList = parts := by
  have hfree : ∀ l ∈ parts.map String.toList, c ∉ l := List.forall_mem_map.mpr h
  rw [String.toList_intercalate, hseparator,
    List.splitOn_intercalate c hfree (mt List.map_eq_nil_iff.mp hparts), List.map_map]
  refine (List.map_congr_left fun part _ => ?_).trans (List.map_id _)
  exact String.ofList_toList

theorem splitOn_flatMap_closed (ls : List (List α)) :
    (ls.flatMap (· ++ [sep])).splitOn sep = ls.flatMap (·.splitOn sep) ++ [[]] := by
  induction ls with
  | nil => simp
  | cons l ls ih =>
    rw [List.flatMap_cons, List.append_assoc, List.singleton_append,
      List.splitOn_append_cons_self, ih,
      List.flatMap_cons, List.append_assoc]

omit [DecidableEq α] in
theorem intercalate_concat_nil (ls : List (List α)) :
    [sep].intercalate (ls ++ [[]]) = ls.flatMap (· ++ [sep]) := by
  induction ls with
  | nil => rfl
  | cons l ls ih =>
    rw [List.cons_append, List.intercalate_cons_of_ne_nil (List.concat_ne_nil [] ls), ih,
      List.flatMap_cons]

omit [DecidableEq α] in
theorem intercalate_append_sep {ls : List (List α)} (h : ls ≠ []) :
    [sep].intercalate ls ++ [sep] = ls.flatMap (· ++ [sep]) := by
  induction ls with
  | nil => exact absurd rfl h
  | cons l ls ih =>
    cases ls with
    | nil => rw [List.intercalate_singleton, List.flatMap_singleton]
    | cons m ls =>
      rw [List.intercalate_cons_cons, List.append_assoc, ih (List.cons_ne_nil m ls)]
      rfl

theorem closed_inj_iff {ls ms : List (List α)} :
    ls.flatMap (· ++ [sep]) = ms.flatMap (· ++ [sep]) ↔
      ls.flatMap (·.splitOn sep) = ms.flatMap (·.splitOn sep) := by
  constructor
  · intro h
    have hsplit := congrArg (List.splitOn sep) h
    rw [splitOn_flatMap_closed, splitOn_flatMap_closed] at hsplit
    exact List.append_cancel_right hsplit
  · intro h
    have hsplit := @splitOn_flatMap_closed _ _ sep ls
    rw [h, ← splitOn_flatMap_closed] at hsplit
    have hjoin := congrArg ([sep].intercalate) hsplit
    rwa [List.intercalate_splitOn, List.intercalate_splitOn] at hjoin

end Words
