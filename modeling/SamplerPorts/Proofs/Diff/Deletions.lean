import SamplerPorts.Proofs.Diff.Equal

/-!
What the deleted lines of a difference say about the two texts. Where no line is deleted the old
lines stand in the new text in their order, with other lines between them, so a text that has no
more lines than the old one is the old one (`lines_eq_zero_iff`). For this to be seen of texts that
are put together, two texts are compared by what they are behind any other one (`NoMoreLines`).
-/

namespace SamplerPorts.Diff

theorem Change.old_sublist_new {cs : List Change} (h : cs.flatMap deleted = []) :
    (cs.flatMap old).Sublist (cs.flatMap new) := by
  induction cs with
  | nil => exact .slnil
  | cons c cs ih =>
      rw [List.flatMap_cons, List.append_eq_nil_iff] at h
      rw [List.flatMap_cons, List.flatMap_cons]
      refine .append ?_ (ih h.2)
      cases c with
      | same ls => exact .refl ls
      | replace os ns =>
          rw [show (replace os ns).old = [] from h.1]
          exact List.nil_sublist _

theorem eq_of_lines_eq {t u : Text} (h : lines t = lines u) : t = u := by
  rw [← flatten_lines t, h, flatten_lines]

namespace Summary

/-- A line is deleted wherever a text changes, unless it gets more lines. -/
theorem lines_eq_zero_iff {old new : Text} (h : (Diff.lines new).length ≤ (Diff.lines old).length) :
    (of old new).lines = 0 ↔ new = old := by
  constructor
  · intro hzero
    have hsub := Change.old_sublist_new (List.length_eq_zero_iff.1 hzero)
    rw [flatMap_old_changes, flatMap_new_changes] at hsub
    exact (eq_of_lines_eq (hsub.eq_of_length_le h)).symm
  · rintro rfl
    rw [summary_self]
    rfl

theorem files_of (old new : Text) : (of old new).files = if (of old new).lines = 0 then 0 else 1 := by
  simp only [of, Nat.pos_iff_ne_zero, ne_eq, ite_not]

end Summary

theorem length_lines_cons (c : Char) (t : Text) :
    (lines (c :: t)).length =
      if c = '\r' ∧ t.head? = some '\n' then (lines t).length
      else if c = '\n' ∨ c = '\r' then (lines t).length + 1
      else max 1 (lines t).length := by
  generalize hs : c :: t = s
  fun_cases lines s with
  | case1 => cases hs
  | case2 rest =>
      cases hs
      simp [show lines ('\n' :: rest) = ['\n'] :: lines rest by simp [lines]]
  | case3 d rest h hend =>
      cases hs
      have hlone : ¬ (c = '\r' ∧ t.head? = some '\n') := by
        rintro ⟨hc, ht⟩
        obtain ⟨rest, rfl⟩ := List.head?_eq_some_iff.1 ht
        exact h rest hc rfl
      rw [if_neg hlone, if_pos hend, List.length_cons]
  | case4 d rest h hend hnil =>
      cases hs
      simp_all
  | case5 d rest h hend first more hcons =>
      cases hs
      simp_all

/-- The new text has no more lines than the old one, whatever stands in front of both. -/
structure NoMoreLines (new old : Text) : Prop where
  length_le : (lines new).length ≤ (lines old).length
  /-- A carriage return before them makes one line end with both or with none. -/
  startsFeed_iff : new.head? = some '\n' ↔ old.head? = some '\n'

namespace NoMoreLines
variable {new old : Text}

theorem refl (t : Text) : NoMoreLines t t := ⟨Nat.le_refl _, Iff.rfl⟩

theorem cons (h : NoMoreLines new old) (c : Char) : NoMoreLines (c :: new) (c :: old) where
  length_le := by
    have := h.length_le
    rw [length_lines_cons, length_lines_cons]
    simp only [h.startsFeed_iff]
    split
    · exact this
    · split <;> omega
  startsFeed_iff := by simp

theorem prepend (h : NoMoreLines new old) (t : Text) : NoMoreLines (t ++ new) (t ++ old) := by
  induction t with
  | nil => exact h
  | cons c t ih => exact ih.cons c

end NoMoreLines

theorem length_lines_le_append (t u : Text) : (lines u).length ≤ (lines (t ++ u)).length := by
  induction t with
  | nil => exact Nat.le_refl _
  | cons c t ih =>
      rw [List.cons_append, length_lines_cons]
      split
      · exact ih
      · split <;> omega

theorem length_lines_pos {t : Text} (h : t ≠ []) : 0 < (lines t).length := by
  refine List.length_pos_iff.2 fun hnil => h ?_
  rw [← flatten_lines t, hnil, List.flatten_nil]

theorem length_lines_append_le {t : Text} (hfeed : '\n' ∉ t) (hreturn : '\r' ∉ t) (u : Text) :
    (lines (t ++ u)).length ≤ max 1 (lines u).length := by
  induction t with
  | nil => exact Nat.le_max_right ..
  | cons c t ih =>
      obtain ⟨hcn, hn⟩ := List.ne_and_not_mem_of_not_mem_cons hfeed
      obtain ⟨hcr, hr⟩ := List.ne_and_not_mem_of_not_mem_cons hreturn
      have := ih hn hr
      rw [List.cons_append, length_lines_cons, if_neg (by simp [Ne.symm hcr]),
        if_neg (by simp [Ne.symm hcn, Ne.symm hcr])]
      omega

/-- A text without line ends adds no line in the place of another text, as the line that it is put
into was there before. -/
theorem NoMoreLines.replace {new old v m : Text} (h : NoMoreLines new old) (hv : v ≠ [])
    (hfeed : '\n' ∉ v) (hreturn : '\r' ∉ v) (hm : m ≠ []) (hhead : m.head? ≠ some '\n') :
    NoMoreLines (v ++ new) (m ++ old) where
  length_le := by
    have hnew := length_lines_append_le hfeed hreturn new
    have hold := length_lines_le_append m old
    have hpos := length_lines_pos (List.append_ne_nil_of_left_ne_nil hm old)
    have := h.length_le
    omega
  startsFeed_iff := by
    obtain ⟨a, v, rfl⟩ := List.exists_cons_of_ne_nil hv
    obtain ⟨b, m, rfl⟩ := List.exists_cons_of_ne_nil hm
    have ha : a ≠ '\n' := Ne.symm (List.ne_and_not_mem_of_not_mem_cons hfeed).1
    have hb : b ≠ '\n' := by simpa using hhead
    simp [ha, hb]

end SamplerPorts.Diff
