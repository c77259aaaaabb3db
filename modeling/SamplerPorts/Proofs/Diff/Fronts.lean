import SamplerPorts.Proofs.Diff.Common

/-!
How far a search gets. After each round the front of a search holds, for every diagonal, the
furthest point that so many edits reach (`Fits`). A round keeps this: a point is entered from the
further one of its neighbours, and from there the search goes on as long as the lines agree
(`fits_round`).
-/

namespace SamplerPorts.Diff
variable {old new : List Text} {n d e i x y : Nat} {front : Front}

theorem take_commonHead (a b : List Text) :
    a.take (commonHead a b).length = b.take (commonHead a b).length := by
  rw [← List.prefix_iff_eq_take.1 (commonHead_prefix_left a b),
    ← List.prefix_iff_eq_take.1 (commonHead_prefix_right a b)]

theorem ne_behind_commonHead (a b : List Text) (ha : (commonHead a b).length < a.length)
    (hb : (commonHead a b).length < b.length) :
    a[(commonHead a b).length] ≠ b[(commonHead a b).length] := by
  fun_induction commonHead a b with
  | case1 a as bs ih => simpa using ih (by simpa using ha) (by simpa using hb)
  | case2 a as b bs hne => exact hne
  | case3 as bs h =>
      cases as with
      | nil => simp at ha
      | cons a as =>
          cases bs with
          | nil => simp at hb
          | cons b bs => exact absurd rfl (h a as b bs rfl)

theorem agreement_eq (old new : List Text) (x y : Nat) :
    agreement old.toArray new.toArray x y = (commonHead (old.drop x) (new.drop y)).length := by
  fun_induction agreement old.toArray new.toArray x y with
  | case1 x y h heq ih =>
      obtain ⟨hx, hy⟩ := h
      simp only [List.size_toArray, List.getElem_toArray] at hx hy heq
      rw [ih, List.drop_eq_getElem_cons hx, List.drop_eq_getElem_cons hy, commonHead, if_pos heq,
        List.length_cons]
  | case2 x y h hne =>
      obtain ⟨hx, hy⟩ := h
      simp only [List.size_toArray, List.getElem_toArray] at hx hy hne
      rw [List.drop_eq_getElem_cons hx, List.drop_eq_getElem_cons hy, commonHead, if_neg hne]
      rfl
  | case3 x y h =>
      simp only [List.size_toArray, Decidable.not_and_iff_not_or_not, Nat.not_lt] at h
      obtain hx | hy := h
      · rw [List.drop_of_length_le hx]
        rfl
      · rw [List.drop_of_length_le hy, commonHead_nil]
        rfl

/-- The lines from two positions on agree as far as it says. -/
theorem take_agreement (old new : List Text) (x y : Nat) :
    (old.drop x).take (agreement old.toArray new.toArray x y) =
      (new.drop y).take (agreement old.toArray new.toArray x y) := by
  rw [agreement_eq, take_commonHead]

theorem add_agreement_le (h : x ≤ old.length) :
    x + agreement old.toArray new.toArray x y ≤ old.length := by
  have := (commonHead_prefix_left (old.drop x) (new.drop y)).length_le
  rw [← agreement_eq, List.length_drop] at this
  omega

/-- The first lines behind an agreement are different ones. -/
theorem ne_behind_agreement
    (hx : x + agreement old.toArray new.toArray x y < old.length)
    (hy : y + agreement old.toArray new.toArray x y < new.length) :
    old[x + agreement old.toArray new.toArray x y] ≠
      new[y + agreement old.toArray new.toArray x y] := by
  have hne := ne_behind_commonHead (old.drop x) (new.drop y)
  simp only [← agreement_eq, List.length_drop, List.getElem_drop] at hne
  exact hne (by omega) (by omega)

theorem Reaches.agreement (h : Reaches old new n x y) :
    Reaches old new n (x + agreement old.toArray new.toArray x y)
      (y + agreement old.toArray new.toArray x y) := by
  by_cases hx : x ≤ old.length
  · exact h.snake (take_agreement ..) (add_agreement_le hx)
  · rw [agreement_eq, List.drop_of_length_le (by omega)]
    exact h

/-- The point on the `i`-th diagonal of a round is the last one that `d` edits reach. -/
structure IsFurthest (old new : List Text) (d i x : Nat) : Prop where
  reaches : ∃ y, x + 2 * i = y + d ∧ Reaches old new d x y
  le : ∀ u v, u + 2 * i = v + d → Reaches old new d u v → u ≤ x

/-- The front of a search that has made `d` edits. -/
structure Fits (old new : List Text) (d : Nat) (front : Front) : Prop where
  size : front.size = d + 1
  isFurthest : ∀ i ≤ d, IsFurthest old new d i (front.getD i 0)

/-- A front that a round with `d` edits begins with; the first round needs none. -/
def Begins (old new : List Text) (d : Nat) (front : Front) : Prop :=
  ∀ e, d = e + 1 → Fits old new e front

theorem Begins.first (old new : List Text) (front : Front) : Begins old new 0 front := nofun

/-- A point is entered with its last edit. -/
theorem exists_enter (h : Begins old new d front) (hi : i ≤ d) :
    ∃ y, front.enter d i + 2 * i = y + d ∧ Reaches old new d (front.enter d i) y := by
  rw [Front.enter]
  obtain _ | e := d
  · exact ⟨0, by simp; omega, [], .nil _ _, by simp⟩
  · have hfits := h e rfl
    rw [if_neg (Nat.succ_ne_zero e)]
    split
    · next hinsert =>
      obtain ⟨y, hy, hreaches⟩ := (hfits.isFurthest (i - 1) (by omega)).reaches
      exact ⟨y + 1, by omega, hreaches.insert⟩
    · next hdelete =>
      obtain ⟨y, hy, hreaches⟩ := (hfits.isFurthest i (by omega)).reaches
      exact ⟨y, by omega, hreaches.delete⟩

/-- No deletion and no insertion gets further on a diagonal than where it is entered. -/
theorem le_enter_of_delete {u v : Nat} (h : Begins old new (e + 1) front)
    (hdiag : u + 1 + 2 * i = v + (e + 1)) (hreaches : Reaches old new e u v) :
    u + 1 ≤ front.enter (e + 1) i := by
  have hle := hreaches.le_add
  have hu := ((h e rfl).isFurthest i (by omega)).le u v (by omega) hreaches
  rw [Front.enter, if_neg (Nat.succ_ne_zero e)]
  split <;> omega

theorem le_enter_of_insert {u v : Nat} (h : Begins old new (e + 1) front)
    (hi : i ≤ e + 1) (hdiag : u + 2 * i = v + 1 + (e + 1)) (hreaches : Reaches old new e u v) :
    u ≤ front.enter (e + 1) i := by
  have hle := hreaches.le_add
  have hu := ((h e rfl).isFurthest (i - 1) (by omega)).le u v (by omega) hreaches
  rw [Front.enter, if_neg (Nat.succ_ne_zero e)]
  split <;> omega

/-- Each of the `d` edits takes a line, so the points of a round are that far from the start. -/
theorem le_enter (h : Begins old new d front) (hi : i ≤ d) : d ≤ front.enter d i + i := by
  obtain _ | e := d
  · exact Nat.zero_le _
  · by_cases hie : i = e + 1
    · omega
    · have hreaches : Reaches old new e (e - i) i :=
        ⟨[], .nil _ _, by rw [List.length_nil]; omega⟩
      have hdiag : e - i + 1 + 2 * i = i + (e + 1) := by omega
      have := le_enter_of_delete h hdiag hreaches
      omega

/-- Where a round's search on the `i`-th diagonal gets to. -/
def reach (old new : List Text) (front : Front) (d i : Nat) : Nat :=
  front.enter d i +
    agreement old.toArray new.toArray (front.enter d i) (front.enter d i + 2 * i - d)

theorem isFurthest_reach (h : Begins old new d front) (hi : i ≤ d) :
    IsFurthest old new d i (reach old new front d i) := by
  obtain ⟨y, hy, hreaches⟩ := exists_enter h hi
  have hreach : reach old new front d i =
      front.enter d i + agreement old.toArray new.toArray (front.enter d i) y := by
    rw [reach, show front.enter d i + 2 * i - d = y by omega]
  rw [hreach]
  refine ⟨⟨_, ?_, hreaches.agreement⟩, fun u => ?_⟩
  · omega
  · induction u with
    | zero => exact fun _ _ _ => Nat.zero_le _
    | succ u ih =>
        intro v hdiag hreaches
        obtain hzero | ⟨u', v', hu, hv, hu', rfl, heq⟩ | ⟨m, u', rfl, hu', hm⟩ |
          ⟨m, v', rfl, rfl, hm⟩ := hreaches.cases
        · omega
        · obtain rfl : u = u' := Nat.succ.inj hu'
          have hle := ih v' (by omega) hreaches.diagonal_succ
          obtain hlt | hux := Nat.lt_or_eq_of_le hle
          · exact hlt
          -- the search stopped right before a common line
          have hvy : v' = y + agreement old.toArray new.toArray (front.enter d i) y := by omega
          subst hux hvy
          exact absurd heq (ne_behind_agreement hu hv)
        · obtain rfl : u = u' := Nat.succ.inj hu'
          have := le_enter_of_delete h hdiag hm
          omega
        · have := le_enter_of_insert h hi hdiag hm
          omega

theorem getElem?_round (hi : i ≤ d) :
    (round old.toArray new.toArray front d)[i]? =
      some (front.enter d i, reach old new front d i) := by
  simp [round, reach, Nat.lt_succ_of_le hi]

theorem fits_round (h : Begins old new d front) :
    Fits old new d ((round old.toArray new.toArray front d).map (·.2)) where
  size := by simp [round]
  isFurthest i hi := by
    rw [Array.getD_eq_getD_getElem?, Array.getElem?_map, getElem?_round hi]
    exact isFurthest_reach h hi

end SamplerPorts.Diff
