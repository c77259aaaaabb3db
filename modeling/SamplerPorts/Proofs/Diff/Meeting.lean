import SamplerPorts.Proofs.Diff.Fronts
import SamplerPorts.Proofs.Diff.Ways

/-!
Where the two searches meet. Points of the two searches on one diagonal that lie past each other
show that the sequences are within so many edits of each other (`Meets.within`). As the searches
meet as soon as that is possible, the edits are the fewest that there can be, and then both points
lie on a way with these edits (`isCut_of_front`, `isCut_of_back`).
-/

namespace SamplerPorts.Diff
variable {a b : List Text} {n d e p q f g x y i j : Nat} {front other : Front}

/-- Two sequences can be cut in two so that the edits of the parts are all the edits needed. -/
structure IsCut (n : Nat) (a b : List Text) (x y : Nat) : Prop where
  pos : 0 < x + y
  lt : x + y < a.length + b.length
  left : x ≤ a.length
  right : y ≤ b.length
  within : ∃ d e, d + e = n ∧ Within d (a.take x) (b.take y) ∧ Within e (a.drop x) (b.drop y)

/-- A point that `d` edits reach from the front and one that `e` edits reach from the back lie past
each other on one diagonal. -/
structure Meets (a b : List Text) (d p q e f g : Nat) : Prop where
  front : Reaches a b d p q
  back : Reaches a.reverse b.reverse e f g
  diagonal : p + f + b.length = q + g + a.length
  past : a.length ≤ p + f

/-- What is reached from the back is what is left behind the point. -/
theorem Reaches.within_drop (h : Reaches a.reverse b.reverse e f g) (hx : x + f = a.length)
    (hy : y + g = b.length) : Within e (a.drop x) (b.drop y) := by
  have hrev := (h.within (by simp; omega) (by simp; omega)).reverse
  rw [List.reverse_take, List.reverse_take, List.reverse_reverse, List.reverse_reverse] at hrev
  simpa [show a.length - f = x by omega, show b.length - g = y by omega] using hrev

theorem Reaches.within_of_meet (h : Reaches a b d x y) (h' : Reaches a.reverse b.reverse e f g)
    (hx : x + f = a.length) (hy : y + g = b.length) : Within (d + e) a b := by
  have := (h.within (by omega) (by omega)).append (h'.within_drop hx hy)
  rwa [List.take_append_drop, List.take_append_drop] at this

namespace Meets

theorem within (h : Meets a b d p q e f g) : Within (d + e) a b := by
  obtain ⟨hfront, hback, hdiag, hpast⟩ := h
  -- both points move back on their diagonal until one is at the other, or at the border
  by_cases hborder : p + f - a.length ≤ min p q + min f g
  · obtain ⟨k, l, hkl, hk, hl⟩ : ∃ k l, k + l = p + f - a.length ∧ k ≤ min p q ∧ l ≤ min f g :=
      ⟨min (p + f - a.length) (min p q), p + f - a.length - min (p + f - a.length) (min p q),
        by omega, by omega, by omega⟩
    have hfront' : Reaches a b d (p - k) (q - k) :=
      Reaches.diagonal (by rwa [Nat.sub_add_cancel (by omega), Nat.sub_add_cancel (by omega)])
    have hback' : Reaches a.reverse b.reverse e (f - l) (g - l) :=
      Reaches.diagonal (by rwa [Nat.sub_add_cancel (by omega), Nat.sub_add_cancel (by omega)])
    exact hfront'.within_of_meet hback' (by omega) (by omega)
  · have := hfront.le_add
    have := hback.le_add
    exact within_of_le (by omega)

/-- If no fewer edits will do, a point is not behind the end of a sequence. -/
theorem add_le (h : Meets a b d p q e f g) (hmin : ∀ m, Within m a b → d + e ≤ m) :
    p + q + e ≤ a.length + b.length ∧ p ≤ a.length ∧ q ≤ b.length := by
  obtain ⟨hfront, hback, hdiag, hpast⟩ := h
  obtain ⟨s, hs, hn⟩ := hfront
  have hlength := hs.length_le
  simp only [List.length_take] at hlength
  have hcommon : IsCommon s a b :=
    ⟨hs.left.trans (List.take_sublist ..), hs.right.trans (List.take_sublist ..)⟩
  have hle := hmin (d + (a.length + b.length) - (p + q)) ⟨s, hcommon, by omega⟩
  have := hback.le_add
  omega

theorem within_drop (h : Meets a b d p q e f g) (hmin : ∀ m, Within m a b → d + e ≤ m) :
    Within e (a.drop p) (b.drop q) := by
  obtain ⟨-, hp, hq⟩ := h.add_le hmin
  have hdiag := h.diagonal
  have hpast := h.past
  have hback : Reaches a.reverse b.reverse e (a.length - p) (b.length - q) := by
    refine Reaches.diagonal (k := p + f - a.length) ?_
    rw [show a.length - p + (p + f - a.length) = f by omega,
      show b.length - q + (p + f - a.length) = g by omega]
    exact h.back
  exact hback.within_drop (by omega) (by omega)

end Meets

theorem on?_eq_some_iff {k : Int} {far : Nat} (h : Fits a b e other) (heven : (e - k) % 2 = 0) :
    other.on? e k = some far ↔ ∃ j ≤ e, k = e - 2 * j ∧ far = other.getD j 0 := by
  have hsize := h.size
  rw [Front.on?, Option.ite_none_right_eq_some]
  constructor
  · rintro ⟨hk, hfar⟩
    refine ⟨((e - k) / 2).toNat, by omega, by omega, ?_⟩
    rw [Array.getD_eq_getD_getElem?, hfar, Option.getD_some]
  · rintro ⟨j, hj, rfl, rfl⟩
    refine ⟨by omega, ?_⟩
    rw [show (((e : Int) - (e - 2 * j)) / 2).toNat = j by omega, Array.getD_eq_getD_getElem?,
      Array.getElem?_eq_getElem (by omega), Option.getD_some]

section
variable (hfront : Begins a b d front) (hother : Fits a.reverse b.reverse e other)
  (heven : (a.length + b.length + d + e) % 2 = 0)
include hfront hother heven

theorem meets_of_overlap?
    (h : overlap? a.length ((a.length : Int) - b.length) (round a.toArray b.toArray front d) d
      other e = some (i, x, p)) :
    i ≤ d ∧ x = front.enter d i ∧ p = reach a b front d i ∧
      ∃ q f g, p + 2 * i = q + d ∧ Meets a b d p q e f g := by
  obtain ⟨i', hi', hmet⟩ := List.exists_of_findSome?_eq_some h
  have hle : i' ≤ d := Nat.le_of_lt_succ (List.mem_range.1 hi')
  rw [getElem?_round hle] at hmet
  simp only [Option.bind_eq_bind, Option.bind_some] at hmet
  obtain ⟨far, hfar, hpast⟩ := Option.bind_eq_some_iff.1 hmet
  simp only [ge_iff_le, Option.ite_none_right_eq_some, Option.some.injEq, Prod.mk.injEq] at hpast
  obtain ⟨hpast, rfl, rfl, rfl⟩ := hpast
  obtain ⟨j, hj, hdiag, rfl⟩ := (on?_eq_some_iff hother (by omega)).1 hfar
  obtain ⟨q, hq, hreaches⟩ := (isFurthest_reach hfront hle).reaches
  obtain ⟨g, hg, hback⟩ := (hother.isFurthest j hj).reaches
  exact ⟨hle, rfl, rfl, q, _, g, hq, hreaches, hback, by omega, hpast⟩

theorem overlap?_ne_none (h : IsDistance (d + e) a b) :
    overlap? a.length ((a.length : Int) - b.length) (round a.toArray b.toArray front d) d
      other e ≠ none := by
  obtain ⟨x, y, f, g, k, hreaches, hback, hx, hy, hk⟩ := h.exists_split
  have hle := hreaches.le_add
  have hle' := hback.le_add
  -- the diagonals of the point from both sides
  have hi := (isFurthest_reach hfront (show (y + d - x) / 2 ≤ d by omega)).le x y (by omega)
    hreaches
  have hj := (hother.isFurthest ((g + e - f) / 2) (by omega)).le f g (by omega) hback
  intro hnone
  rw [overlap?, List.findSome?_eq_none_iff] at hnone
  have hmet := hnone ((y + d - x) / 2) (List.mem_range.2 (by omega))
  have hon := (on?_eq_some_iff
    (k := (a.length : Int) - b.length - (d - 2 * ((y + d - x) / 2 : Nat)))
    hother (by omega)).2 ⟨(g + e - f) / 2, by omega, by omega, rfl⟩
  rw [getElem?_round (by omega)] at hmet
  simp only [Option.bind_eq_bind, Option.bind_some] at hmet
  rw [hon, Option.bind_some, if_pos (by omega)] at hmet
  cases hmet

end

/-- The point where the search from the front enters its last run of common lines. -/
theorem isCut_of_front (hfront : Begins a b d front) (hdist : IsDistance (d + e) a b) (hi : i ≤ d)
    (hd : 0 < d) (he : 0 < e) (hq : reach a b front d i + 2 * i = q + d)
    (h : Meets a b d (reach a b front d i) q e f g) :
    IsCut (d + e) a b (front.enter d i) (front.enter d i + 2 * i - d) := by
  obtain ⟨hsum, hp, hq'⟩ := h.add_le hdist.le
  obtain ⟨y, hy, hreaches⟩ := exists_enter hfront hi
  have hlow := le_enter hfront hi
  have hdrop := h.within_drop hdist.le
  rw [reach, show front.enter d i + 2 * i - d = y by omega] at *
  have hagree := take_agreement a b (front.enter d i) y
  rw [show q = y + agreement a.toArray b.toArray (front.enter d i) y by omega] at hdrop
  generalize agreement a.toArray b.toArray (front.enter d i) y = run at *
  refine ⟨by omega, by omega, by omega, by omega, d, e, rfl, hreaches.within (by omega) (by omega),
    ?_⟩
  rw [← List.drop_drop, ← List.drop_drop] at hdrop
  have := (Within.refl ((a.drop (front.enter d i)).take run)).append hdrop
  rwa [List.take_append_drop, hagree, List.take_append_drop, Nat.zero_add] at this

/-- The point where the search from the back has gone as far as its run of common lines goes. -/
theorem isCut_of_back (hrear : Begins a.reverse b.reverse d front) (hdist : IsDistance (d + e) a b)
    (hi : i ≤ d) (hd : 0 < d) (he : 0 < e)
    (hq : reach a.reverse b.reverse front d i + 2 * i = q + d)
    (h : Meets a.reverse b.reverse d (reach a.reverse b.reverse front d i) q e f g) :
    IsCut (d + e) a b (a.length - reach a.reverse b.reverse front d i) (b.length - q) := by
  obtain ⟨hsum, hp, hq'⟩ := h.add_le hdist.reverse.le
  have hdrop := (h.within_drop hdist.reverse.le).reverse
  have hlow := le_enter hrear hi
  have hreach : front.enter d i ≤ reach a.reverse b.reverse front d i := Nat.le_add_right ..
  have hback := h.front
  generalize reach a.reverse b.reverse front d i = p at *
  simp only [List.length_reverse] at hsum hp hq'
  refine ⟨by omega, by omega, by omega, by omega, e, d, by omega, ?_,
    hback.within_drop (by omega) (by omega)⟩
  rwa [List.drop_reverse, List.drop_reverse, List.reverse_reverse, List.reverse_reverse] at hdrop

section
variable (hdist : IsDistance n a b) (htwo : 2 ≤ n) (hle : d + e ≤ n) (hed : e ≤ d) (hde : d ≤ e + 1)
  (heven : (a.length + b.length + d + e) % 2 = 0)
include hdist htwo hle hed hde heven

/-- If the search from the front does not meet the other one, more edits are needed. -/
theorem overlap?_front (hfront : Begins a b d front) (hother : Fits a.reverse b.reverse e other) :
    let met := overlap? a.length ((a.length : Int) - b.length)
      (round a.toArray b.toArray front d) d other e
    (met = none → d + e < n) ∧
      ∀ i x p, met = some (i, x, p) → IsCut n a b x (x + 2 * i - d) := by
  constructor
  · intro hnone
    refine Nat.lt_of_le_of_ne hle fun heq => ?_
    subst heq
    exact overlap?_ne_none hfront hother heven hdist hnone
  · intro i x p hsome
    obtain ⟨hi, rfl, rfl, q, f, g, hq, hmeets⟩ := meets_of_overlap? hfront hother heven hsome
    obtain rfl : d + e = n := Nat.le_antisymm hle (hdist.le _ hmeets.within)
    exact isCut_of_front hfront hdist hi (by omega) (by omega) hq hmeets

theorem overlap?_back (hrear : Begins a.reverse b.reverse d front) (hother : Fits a b e other) :
    let met := overlap? a.length ((a.length : Int) - b.length)
      (round a.reverse.toArray b.reverse.toArray front d) d other e
    (met = none → d + e < n) ∧
      ∀ i x p, met = some (i, x, p) →
        IsCut n a b (a.length - p) (b.length - (p + 2 * i - d)) := by
  have hother' : Fits a.reverse.reverse b.reverse.reverse e other := by simpa using hother
  have heven' : (a.reverse.length + b.reverse.length + d + e) % 2 = 0 := by simpa using heven
  constructor
  · intro hnone
    refine Nat.lt_of_le_of_ne hle fun heq => ?_
    subst heq
    exact overlap?_ne_none hrear hother' heven' hdist.reverse (by simpa using hnone)
  · intro i x p hsome
    obtain ⟨hi, -, rfl, q, f, g, hq, hmeets⟩ :=
      meets_of_overlap? hrear hother' heven' (by simpa using hsome)
    obtain rfl : d + e = n := Nat.le_antisymm hle (hdist.reverse.le _ hmeets.within)
    have := isCut_of_back hrear hdist hi (by omega) (by omega) hq hmeets
    rwa [show q = reach a.reverse b.reverse front d i + 2 * i - d by omega] at this

end

theorem Begins.succ (h : Begins a b d front) :
    Begins a b (d + 1) ((round a.toArray b.toArray front d).map (·.2)) := by
  rintro e he
  cases he
  exact fits_round h

/-- The searches meet as soon as they can, and where they meet the sequences can be cut. -/
theorem exists_meet (hdist : IsDistance n a b) (htwo : 2 ≤ n) {rounds : Nat} {rear : Front}
    (hfront : Begins a b d front) (hrear : Begins a.reverse b.reverse d rear)
    (hd : 2 * d ≤ n + 1) (hrounds : n + 1 < 2 * (d + rounds)) :
    ∃ x y, meet? a.toArray b.toArray a.reverse.toArray b.reverse.toArray rounds d front rear =
      some (x, y) ∧ IsCut n a b x y := by
  obtain ⟨s, -, hs⟩ := hdist.exists_common
  induction rounds generalizing d front rear with
  | zero => omega
  | succ rounds ih =>
      have hnext (h : 2 * (d + 1) ≤ n + 1) := ih hfront.succ hrear.succ h (by omega)
      rw [meet?]
      simp only [List.size_toArray]
      obtain heven | hodd := Nat.mod_two_eq_zero_or_one n
      · -- the search from the back looks for the other one
        have hshift : (((a.length : Int) - b.length) % 2 != 0) = false := by
          rw [bne_eq_false_iff_eq]
          omega
        obtain ⟨hnone, hsome⟩ := overlap?_back hdist htwo (e := d) (by omega) (by omega) (by omega)
          (by omega) hrear (fits_round hfront)
        rw [hshift]
        simp only [Bool.false_and, Bool.false_eq_true, if_false]
        split
        · next i x p hmet => exact ⟨_, _, rfl, hsome i x p hmet⟩
        · next hmet =>
          have := hnone hmet
          exact hnext (by omega)
      · have hshift : (((a.length : Int) - b.length) % 2 != 0) = true := by
          rw [bne_iff_ne]
          omega
        rw [hshift]
        simp only [Bool.true_and, if_true]
        obtain _ | e := d
        · exact hnext (by omega)
        · obtain ⟨hnone, hsome⟩ := overlap?_front hdist htwo (e := e) (by omega) (by omega)
            (by omega) (by omega) hfront (hrear e rfl)
          have hnonzero : (e + 1 != 0) = true := rfl
          rw [hnonzero, if_pos rfl, Nat.add_sub_cancel]
          split
          · next i x p hmet => exact ⟨_, _, rfl, hsome i x p hmet⟩
          · next hmet =>
            have := hnone hmet
            exact hnext (by omega)

end SamplerPorts.Diff
