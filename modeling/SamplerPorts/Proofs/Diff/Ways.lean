import SamplerPorts.Proofs.Diff.Common

/-!
Ways from one sequence to another. A way takes one edit after the other, so it can be parted after
any number of them (`Way.exists_parts`). A way with the fewest edits is one that keeps a longest
common subsequence, and so two searches from both ends can share its edits between them
(`IsDistance.exists_split`).
-/

namespace SamplerPorts.Diff
variable {a b s : List Text} {n d e : Nat}

/-- A way from one sequence to the other, with the number of its edits. -/
inductive Way : Nat → List Text → List Text → Prop
  | nil : Way 0 [] []
  | keep {n : Nat} {a b : List Text} (l : Text) (rest : Way n a b) : Way n (l :: a) (l :: b)
  | delete {n : Nat} {a b : List Text} (l : Text) (rest : Way n a b) : Way (n + 1) (l :: a) b
  | insert {n : Nat} {a b : List Text} (l : Text) (rest : Way n a b) : Way (n + 1) a (l :: b)

namespace Way

theorem inserts (ls : List Text) (h : Way n a b) : Way (n + ls.length) a (ls ++ b) := by
  induction ls with
  | nil => exact h
  | cons l ls ih => exact ih.insert l

theorem exists_common (h : Way n a b) :
    ∃ s, IsCommon s a b ∧ a.length + b.length = 2 * s.length + n := by
  induction h with
  | nil => exact ⟨[], .nil _ _, rfl⟩
  | keep l _ ih =>
      obtain ⟨s, hs, hn⟩ := ih
      refine ⟨l :: s, ⟨hs.left.cons_cons l, hs.right.cons_cons l⟩, ?_⟩
      simp only [List.length_cons]
      omega
  | delete l _ ih =>
      obtain ⟨s, hs, hn⟩ := ih
      refine ⟨s, ⟨hs.left.cons l, hs.right⟩, ?_⟩
      simp only [List.length_cons]
      omega
  | insert l _ ih =>
      obtain ⟨s, hs, hn⟩ := ih
      refine ⟨s, ⟨hs.left, hs.right.cons l⟩, ?_⟩
      simp only [List.length_cons]
      omega

/-- Every common subsequence has a way that keeps it. -/
theorem of_sublist (hleft : s.Sublist a) (hright : s.Sublist b) :
    ∃ n, Way n a b ∧ a.length + b.length = 2 * s.length + n := by
  induction hleft generalizing b with
  | slnil =>
      have hway := nil.inserts b
      rw [List.append_nil] at hway
      exact ⟨_, hway, by simp⟩
  | cons l _ ih =>
      obtain ⟨n, hway, hn⟩ := ih hright
      refine ⟨n + 1, hway.delete l, ?_⟩
      rw [List.length_cons]
      omega
  | cons_cons l _ ih =>
      obtain ⟨r, b', rfl, hmem, hrest⟩ := List.cons_sublist_iff.1 hright
      obtain ⟨before, after, rfl⟩ := List.append_of_mem hmem
      obtain ⟨n, hway, hn⟩ := ih (b := after ++ b') (hrest.trans (List.sublist_append_right ..))
      refine ⟨n + before.length, ?_, ?_⟩
      · simpa using (hway.keep l).inserts before
      · simp only [List.length_append, List.length_cons] at hn ⊢
        omega

/-- A way can be parted after any number of its edits. -/
theorem exists_parts (h : Way n a b) (hd : d ≤ n) :
    ∃ a₁ a₂ b₁ b₂, a = a₁ ++ a₂ ∧ b = b₁ ++ b₂ ∧ Way d a₁ b₁ ∧ Way (n - d) a₂ b₂ := by
  obtain _ | d := d
  · exact ⟨[], a, [], b, rfl, rfl, .nil, h⟩
  · induction h generalizing d with
    | nil => omega
    | keep l rest ih =>
        obtain ⟨a₁, a₂, b₁, b₂, rfl, rfl, h₁, h₂⟩ := ih d hd
        exact ⟨l :: a₁, a₂, l :: b₁, b₂, rfl, rfl, h₁.keep l, h₂⟩
    | @delete n a b l rest ih =>
        obtain _ | d := d
        · exact ⟨[l], a, [], b, rfl, rfl, nil.delete l, rest⟩
        · obtain ⟨a₁, a₂, b₁, b₂, rfl, rfl, h₁, h₂⟩ := ih d (by omega)
          refine ⟨l :: a₁, a₂, b₁, b₂, rfl, rfl, h₁.delete l, ?_⟩
          rwa [Nat.add_sub_add_right]
    | @insert n a b l rest ih =>
        obtain _ | d := d
        · exact ⟨[], a, [l], b, rfl, rfl, nil.insert l, rest⟩
        · obtain ⟨a₁, a₂, b₁, b₂, rfl, rfl, h₁, h₂⟩ := ih d (by omega)
          refine ⟨a₁, a₂, l :: b₁, b₂, rfl, rfl, h₁.insert l, ?_⟩
          rwa [Nat.add_sub_add_right]

end Way

/-- No fewer edits lead from one of the sequences to the other. -/
structure IsDistance (n : Nat) (a b : List Text) : Prop where
  within : Within n a b
  le : ∀ m, Within m a b → n ≤ m

theorem IsDistance.reverse (h : IsDistance n a b) : IsDistance n a.reverse b.reverse where
  within := h.within.reverse
  le m hm := h.le m (by simpa using hm.reverse)

theorem IsDistance.exists_common (h : IsDistance n a b) :
    ∃ s, IsCommon s a b ∧ a.length + b.length = 2 * s.length + n := by
  obtain ⟨s, hs, hn⟩ := h.within
  have hle := hs.length_le
  have := h.le (a.length + b.length - 2 * s.length) ⟨s, hs, by omega⟩
  exact ⟨s, hs, by omega⟩

theorem IsDistance.way (h : IsDistance n a b) : Way n a b := by
  obtain ⟨s, hs, hn⟩ := h.exists_common
  obtain ⟨m, hway, hm⟩ := Way.of_sublist hs.left hs.right
  rwa [show n = m by omega]

/-- The fewest edits can be parted after any number of them. -/
theorem IsDistance.exists_split (h : IsDistance (d + e) a b) :
    ∃ x y f g k, Reaches a b d x y ∧ Reaches a.reverse b.reverse e f g ∧ x + f = a.length ∧
      y + g = b.length ∧ x + y = 2 * k + d := by
  obtain ⟨a₁, a₂, b₁, b₂, rfl, rfl, h₁, h₂⟩ := h.way.exists_parts (Nat.le_add_right d e)
  rw [Nat.add_sub_cancel_left] at h₂
  obtain ⟨s₁, hs₁, hn₁⟩ := h₁.exists_common
  obtain ⟨s₂, hs₂, hn₂⟩ := h₂.exists_common
  refine ⟨a₁.length, b₁.length, a₂.length, b₂.length, s₁.length, ⟨s₁, ?_, by omega⟩,
    ⟨s₂.reverse, ?_, ?_⟩, by simp, by simp, hn₁⟩
  · rwa [List.take_left, List.take_left]
  · rw [List.reverse_append, List.reverse_append, List.take_left' (List.length_reverse ..),
      List.take_left' (List.length_reverse ..)]
    exact hs₂.reverse
  · rw [List.length_reverse]
    omega

end SamplerPorts.Diff
