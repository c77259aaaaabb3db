import SamplerPorts.Diff.Search

/-!
How far two sequences of lines are apart. Two sequences are within `n` edits of each other if all
but `n` of their lines are in a common subsequence of both (`Within`). For the searches this is
asked of the first lines of two sequences (`Reaches`), where a search may go on behind the end of a
sequence as if there were more lines that are in no other one. Fewer lines of both are never further
apart (`Reaches.diagonal`), and the last step to a point is a common line or an edit
(`Reaches.cases`).
-/

namespace SamplerPorts.Diff

/-- Both sequences hold these lines in this order. -/
structure IsCommon (s a b : List Text) : Prop where
  left : s.Sublist a
  right : s.Sublist b

/-- All but `n` lines of the two sequences are in a common one. -/
def Within (n : Nat) (a b : List Text) : Prop :=
  ∃ s, IsCommon s a b ∧ a.length + b.length ≤ 2 * s.length + n

/-- With `n` edits one gets `x` lines into the old sequence and `y` lines into the new one. -/
def Reaches (old new : List Text) (n x y : Nat) : Prop :=
  ∃ s, IsCommon s (old.take x) (new.take y) ∧ x + y ≤ 2 * s.length + n

variable {a b c d s t old new : List Text} {m n x y : Nat}

namespace IsCommon

theorem nil (a b : List Text) : IsCommon [] a b := ⟨List.nil_sublist a, List.nil_sublist b⟩

theorem append (h : IsCommon s a b) (h' : IsCommon t c d) : IsCommon (s ++ t) (a ++ c) (b ++ d) :=
  ⟨h.left.append h'.left, h.right.append h'.right⟩

theorem reverse (h : IsCommon s a b) : IsCommon s.reverse a.reverse b.reverse :=
  ⟨h.left.reverse, h.right.reverse⟩

theorem tail (h : IsCommon s a b) : IsCommon s.tail a.tail b.tail := ⟨h.left.tail, h.right.tail⟩

theorem length_le (h : IsCommon s a b) : s.length ≤ a.length ∧ s.length ≤ b.length :=
  ⟨h.left.length_le, h.right.length_le⟩

end IsCommon

namespace Within

theorem append (h : Within m a b) (h' : Within n c d) : Within (m + n) (a ++ c) (b ++ d) := by
  obtain ⟨s, hs, hm⟩ := h
  obtain ⟨t, ht, hn⟩ := h'
  refine ⟨s ++ t, hs.append ht, ?_⟩
  simp only [List.length_append]
  omega

theorem refl (a : List Text) : Within 0 a a := ⟨a, ⟨.refl a, .refl a⟩, by omega⟩

theorem reverse (h : Within n a b) : Within n a.reverse b.reverse := by
  obtain ⟨s, hs, hn⟩ := h
  exact ⟨s.reverse, hs.reverse, by simpa using hn⟩

/-- What two sequences begin with in common does not bring them nearer to each other. -/
theorem of_append_left (h : Within n (c ++ a) (c ++ b)) : Within n a b := by
  induction c with
  | nil => exact h
  | cons l c ih =>
      obtain ⟨s, hs, hn⟩ := h
      refine ih ⟨s.tail, hs.tail, ?_⟩
      simp only [List.cons_append, List.length_cons, List.length_tail] at hn ⊢
      omega

theorem of_append_right (h : Within n (a ++ c) (b ++ c)) : Within n a b := by
  have hreverse := h.reverse
  rw [List.reverse_append, List.reverse_append] at hreverse
  simpa using hreverse.of_append_left.reverse

end Within

theorem within_of_le (h : a.length + b.length ≤ n) : Within n a b :=
  ⟨[], .nil a b, by simpa using h⟩

theorem length_le_of_within_nil (h : Within n a []) : a.length ≤ n := by
  obtain ⟨s, hs, hn⟩ := h
  have := hs.length_le.2
  simp only [List.length_nil] at this hn
  omega

theorem length_le_of_nil_within (h : Within n [] b) : b.length ≤ n := by
  obtain ⟨s, hs, hn⟩ := h
  have := hs.length_le.1
  simp only [List.length_nil] at this hn
  omega

/-- A sequence that stands in the first lines does without the last of them or ends with it. -/
theorem sublist_take_succ (h : s.Sublist (a.take (x + 1))) :
    s.Sublist (a.take x) ∨
      ∃ t, ∃ hx : x < a.length, t.Sublist (a.take x) ∧ s = t ++ [a[x]] := by
  by_cases hx : x < a.length
  · rw [List.take_add_one, List.getElem?_eq_getElem hx, Option.toList_some] at h
    obtain ⟨t, last, rfl, ht, hlast⟩ := List.sublist_append_iff.1 h
    cases hlast with
    | cons _ hnil =>
        rw [List.sublist_nil.1 hnil, List.append_nil]
        exact .inl ht
    | cons_cons _ hnil =>
        rw [List.sublist_nil.1 hnil]
        exact .inr ⟨t, hx, ht, rfl⟩
  · rw [List.take_of_length_le (by omega)] at h ⊢
    exact .inl h

theorem dropLast_sublist_take (h : s.Sublist (a.take (x + 1))) : s.dropLast.Sublist (a.take x) := by
  obtain h | ⟨t, hx, ht, rfl⟩ := sublist_take_succ h
  · exact s.dropLast_sublist.trans h
  · simpa using ht

namespace Reaches

theorem within (h : Reaches old new n x y) (hx : x ≤ old.length) (hy : y ≤ new.length) :
    Within n (old.take x) (new.take y) := by
  obtain ⟨s, hs, hn⟩ := h
  refine ⟨s, hs, ?_⟩
  rw [List.length_take_of_le hx, List.length_take_of_le hy]
  exact hn

/-- The number of edits bounds how far a point is off the first diagonal. -/
theorem le_add (h : Reaches old new n x y) : x ≤ y + n ∧ y ≤ x + n := by
  obtain ⟨s, hs, hn⟩ := h
  have := hs.length_le
  simp only [List.length_take] at this
  omega

theorem delete (h : Reaches old new n x y) : Reaches old new (n + 1) (x + 1) y := by
  obtain ⟨s, hs, hn⟩ := h
  exact ⟨s, ⟨hs.left.trans (List.take_sublist_take_left (by omega)), hs.right⟩, by omega⟩

theorem insert (h : Reaches old new n x y) : Reaches old new (n + 1) x (y + 1) := by
  obtain ⟨s, hs, hn⟩ := h
  exact ⟨s, ⟨hs.left, hs.right.trans (List.take_sublist_take_left (by omega))⟩, by omega⟩

theorem diagonal_succ (h : Reaches old new n (x + 1) (y + 1)) : Reaches old new n x y := by
  obtain ⟨s, hs, hn⟩ := h
  refine ⟨s.dropLast, ⟨dropLast_sublist_take hs.left, dropLast_sublist_take hs.right⟩, ?_⟩
  rw [List.length_dropLast]
  omega

/-- Where a point is reached, those before it on its diagonal are. -/
theorem diagonal {k : Nat} (h : Reaches old new n (x + k) (y + k)) : Reaches old new n x y := by
  induction k with
  | zero => exact h
  | succ k ih => exact ih h.diagonal_succ

theorem snake {k : Nat} (h : Reaches old new n x y)
    (hk : (old.drop x).take k = (new.drop y).take k) (hx : x + k ≤ old.length) :
    Reaches old new n (x + k) (y + k) := by
  obtain ⟨s, hs, hn⟩ := h
  refine ⟨s ++ (old.drop x).take k, ?_, ?_⟩
  · rw [List.take_add, List.take_add, ← hk]
    exact hs.append ⟨.refl _, .refl _⟩
  · simp only [List.length_append, List.length_take, List.length_drop]
    omega

/-- The last step to a point is a common line, a deletion or an insertion. -/
theorem cases (h : Reaches old new n x y) :
    x + y = 0 ∨
      (∃ u v, ∃ hu : u < old.length, ∃ hv : v < new.length,
        x = u + 1 ∧ y = v + 1 ∧ old[u] = new[v]) ∨
      (∃ m u, n = m + 1 ∧ x = u + 1 ∧ Reaches old new m u y) ∨
      ∃ m v, n = m + 1 ∧ y = v + 1 ∧ Reaches old new m x v := by
  obtain ⟨s, hs, hn⟩ := h
  have hlength := hs.length_le
  simp only [List.length_take] at hlength
  obtain _ | u := x
  · obtain _ | v := y
    · exact .inl rfl
    · refine .inr (.inr (.inr ⟨n - 1, v, by omega, rfl, [], .nil _ _, ?_⟩))
      simp only [List.length_nil]
      omega
  · obtain _ | v := y
    · refine .inr (.inr (.inl ⟨n - 1, u, by omega, rfl, [], .nil _ _, ?_⟩))
      simp only [List.length_nil]
      omega
    · obtain hu | ⟨t, hu, -, hold⟩ := sublist_take_succ hs.left
      · have := hu.length_le
        rw [List.length_take] at this
        exact .inr (.inr (.inl ⟨n - 1, u, by omega, rfl, s, ⟨hu, hs.right⟩, by omega⟩))
      · obtain hv | ⟨t', hv, -, hnew⟩ := sublist_take_succ hs.right
        · have := hv.length_le
          rw [List.length_take] at this
          exact .inr (.inr (.inr ⟨n - 1, v, by omega, rfl, s, ⟨hs.left, hv⟩, by omega⟩))
        · refine .inr (.inl ⟨u, v, hu, hv, rfl, rfl, ?_⟩)
          simpa using (List.append_inj' (hold.symm.trans hnew) rfl).2

end Reaches

end SamplerPorts.Diff
