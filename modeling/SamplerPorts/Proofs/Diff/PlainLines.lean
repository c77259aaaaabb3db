import SamplerPorts.Diff.Line
import SamplerPorts.Proofs.Diff.Common

/-!
Texts whose carriage returns stand only at the ends of lines. Their lines are the same for the
difference as for setting ports, but for the line feeds (`lines_unlines_cons`). So the lines that
two such texts have in the same places are a common subsequence (`exists_common_of_zip`), and a line
that has another one in its place is a line of its own (`countP_zip_le`).
-/

namespace SamplerPorts.Diff
open Text (unlines)

theorem lines_cons_of_ne {c : Char} (t : Text) (hfeed : c ≠ '\n') (hreturn : c ≠ '\r') :
    lines (c :: t) = (c :: (lines t).headD []) :: (lines t).tail := by
  rw [lines, if_neg (by simp [hfeed, hreturn])]
  · cases lines t <;> rfl
  · intro _ hc
    exact absurd hc hreturn

/-- A line that has no carriage return but at its end ends with the next line feed. -/
theorem lines_append_feed {line : Text} (hfeed : '\n' ∉ line) (hreturn : '\r' ∉ line.dropLast)
    (rest : Text) : lines (line ++ '\n' :: rest) = (line ++ ['\n']) :: lines rest := by
  induction line with
  | nil => simp [lines]
  | cons c line ih =>
      obtain ⟨hc, hline⟩ := List.ne_and_not_mem_of_not_mem_cons hfeed
      cases line with
      | nil =>
          by_cases hcr : c = '\r'
          · rw [hcr]
            rfl
          · rw [List.singleton_append, lines_cons_of_ne _ (Ne.symm hc) hcr]
            simp [lines]
      | cons d line =>
          rw [List.dropLast_cons_cons] at hreturn
          obtain ⟨hcr, hreturn⟩ := List.ne_and_not_mem_of_not_mem_cons hreturn
          rw [List.cons_append, lines_cons_of_ne _ (Ne.symm hc) (Ne.symm hcr), ih hline hreturn]
          rfl

theorem lines_of_not_mem {line : Text} (hfeed : '\n' ∉ line) (hreturn : '\r' ∉ line.dropLast) :
    lines line = if line = [] then [] else [line] := by
  induction line with
  | nil => rfl
  | cons c line ih =>
      obtain ⟨hc, hline⟩ := List.ne_and_not_mem_of_not_mem_cons hfeed
      rw [if_neg (List.cons_ne_nil _ _)]
      cases line with
      | nil =>
          by_cases hcr : c = '\r'
          · rw [hcr]
            rfl
          · rw [lines_cons_of_ne _ (Ne.symm hc) hcr]
            rfl
      | cons d line =>
          rw [List.dropLast_cons_cons] at hreturn
          obtain ⟨hcr, hreturn⟩ := List.ne_and_not_mem_of_not_mem_cons hreturn
          rw [lines_cons_of_ne _ (Ne.symm hc) (Ne.symm hcr), ih hline hreturn,
            if_neg (List.cons_ne_nil _ _)]
          rfl

/-- A line that has line ends at its end only, and no line feed. -/
structure IsPlain (line : Text) : Prop where
  feed : '\n' ∉ line
  lone : '\r' ∉ line.dropLast

theorem lines_unlines_cons {line next : Text} {more : List Text} (h : IsPlain line) :
    lines (unlines (line :: next :: more)) =
      (line ++ ['\n']) :: lines (unlines (next :: more)) := by
  rw [← lines_append_feed h.feed h.lone, unlines,
    Text.join_cons_of_ne_nil _ _ (List.cons_ne_nil _ _), List.append_assoc, List.singleton_append]
  rfl

theorem length_lines_le_one {line : Text} (h : IsPlain line) : (lines line).length ≤ 1 := by
  rw [lines_of_not_mem h.feed h.lone]
  split <;> simp

theorem mem_lines_unlines {ls : List Text} {x : Text} (hls : ∀ l ∈ ls, IsPlain l)
    (hx : x ∈ lines (unlines ls)) : ∃ l ∈ ls, x = l ∨ x = l ++ ['\n'] := by
  induction ls with
  | nil => simp [unlines, Text.join, lines] at hx
  | cons l ls ih =>
      obtain ⟨hl, hls⟩ := List.forall_mem_cons.1 hls
      cases ls with
      | nil =>
          rw [show unlines [l] = l from rfl, lines_of_not_mem hl.feed hl.lone] at hx
          split at hx
          · cases hx
          · exact ⟨l, List.mem_singleton_self l, .inl (List.mem_singleton.1 hx)⟩
      | cons next more =>
          rw [lines_unlines_cons hl] at hx
          obtain rfl | hx := List.mem_cons.1 hx
          · exact ⟨l, List.mem_cons_self .., .inr rfl⟩
          · obtain ⟨l', hl', hxl⟩ := ih hls hx
            exact ⟨l', List.mem_cons_of_mem _ hl', hxl⟩

/-- The lines that two texts have in the same places are a common subsequence. -/
theorem exists_common_of_zip {ls ls' : List Text} (hlength : ls.length = ls'.length)
    (hls : ∀ l ∈ ls, IsPlain l) (hls' : ∀ l ∈ ls', IsPlain l) :
    ∃ s, IsCommon s (lines (unlines ls)) (lines (unlines ls')) ∧
      (lines (unlines ls)).length ≤
        s.length + (ls.zip ls').countP fun p => p.1 != p.2 := by
  induction ls generalizing ls' with
  | nil => exact ⟨[], .nil _ _, Nat.zero_le _⟩
  | cons l ls ih =>
      obtain ⟨l', ls', rfl⟩ := List.exists_cons_of_length_eq_add_one hlength.symm
      obtain ⟨hl, hls⟩ := List.forall_mem_cons.1 hls
      obtain ⟨hl', hls'⟩ := List.forall_mem_cons.1 hls'
      rw [List.zip_cons_cons, List.countP_cons]
      cases ls with
      | nil =>
          obtain rfl : ls' = [] := by simpa using hlength
          by_cases heq : l = l'
          · exact ⟨lines (unlines [l]), heq ▸ ⟨.refl _, .refl _⟩, Nat.le_add_right ..⟩
          · refine ⟨[], .nil _ _, ?_⟩
            rw [show unlines [l] = l from rfl]
            simpa [heq] using length_lines_le_one hl
      | cons next more =>
          obtain ⟨next', more', rfl⟩ := List.exists_cons_of_length_eq_add_one
            (Nat.succ.inj hlength).symm
          obtain ⟨s, hs, hcount⟩ := ih (Nat.succ.inj hlength) hls hls'
          rw [lines_unlines_cons hl, lines_unlines_cons hl', List.length_cons]
          by_cases heq : l = l'
          · refine ⟨(l ++ ['\n']) :: s, heq ▸ ⟨hs.left.cons_cons _, hs.right.cons_cons _⟩, ?_⟩
            rw [List.length_cons]
            omega
          · refine ⟨s, ⟨hs.left.cons _, hs.right.cons _⟩, ?_⟩
            simp only [heq, bne_iff_ne, ne_eq, not_false_eq_true, if_true]
            omega

/-- Each line that has another one in its place is a line of the first text. -/
theorem countP_zip_le {ls ls' : List Text} {absent : Text → Bool}
    (hlength : ls.length = ls'.length) (hls : ∀ l ∈ ls, IsPlain l)
    (hlast : ls.getLast? = some [] → ls'.getLast? = some [])
    (habsent : ∀ p ∈ ls.zip ls', p.1 ≠ p.2 → absent p.1 = true ∧ absent (p.1 ++ ['\n']) = true) :
    ((ls.zip ls').countP fun p => p.1 != p.2) ≤ (lines (unlines ls)).countP absent := by
  induction ls generalizing ls' with
  | nil => exact Nat.zero_le _
  | cons l ls ih =>
      obtain ⟨l', ls', rfl⟩ := List.exists_cons_of_length_eq_add_one hlength.symm
      obtain ⟨hl, hls⟩ := List.forall_mem_cons.1 hls
      rw [List.zip_cons_cons] at habsent
      obtain ⟨hhead, htail⟩ := List.forall_mem_cons.1 habsent
      rw [List.zip_cons_cons, List.countP_cons]
      cases ls with
      | nil =>
          obtain rfl : ls' = [] := by simpa using hlength
          by_cases heq : l = l'
          · simp [heq]
          · have hne : l ≠ [] := by
              rintro rfl
              have := hlast rfl
              simp only [List.getLast?_singleton, Option.some.injEq] at this
              exact heq this.symm
            rw [show unlines [l] = l from rfl, lines_of_not_mem hl.feed hl.lone, if_neg hne]
            simp [heq, (hhead heq).1]
      | cons next more =>
          obtain ⟨next', more', rfl⟩ := List.exists_cons_of_length_eq_add_one
            (Nat.succ.inj hlength).symm
          have := ih (Nat.succ.inj hlength) hls (by simpa using hlast) htail
          rw [lines_unlines_cons hl, List.countP_cons]
          by_cases heq : l = l'
          · simp only [heq, bne_self_eq_false, Bool.false_eq_true, if_false]
            omega
          · simp only [heq, (hhead heq).2, bne_iff_ne, ne_eq, not_false_eq_true, if_true]
            omega

/-- A common subsequence has none of the lines that are in one sequence only. -/
theorem IsCommon.length_add_le {s a b : List Text} (h : IsCommon s a b) :
    s.length + a.countP (fun l => !b.contains l) ≤ a.length := by
  have hmem : s.countP b.contains = s.length :=
    List.countP_eq_length.2 fun l hl => List.contains_iff_mem.2 (h.right.subset hl)
  have hle : s.countP b.contains ≤ a.countP b.contains := h.left.countP_le
  have hsum := a.length_eq_countP_add_countP b.contains
  simp only [Bool.not_eq_true, Bool.decide_eq_false] at hsum
  omega

end SamplerPorts.Diff
