import SamplerPorts.Diff.Script

/-!
The search for a short edit script. Two searches, one from the front and one from the back, take
one more edit in every round and keep for each diagonal how far they come; where they meet, the
script is cut in two. Whatever point the search finds, the script walks the two sequences
(`old_between`, `new_between`), because lines are only kept where they are equal.
-/

namespace SamplerPorts.Diff

/-- How far a search gets in the old sequence on each diagonal that `d` edits can reach, from the
diagonal `d` down to `-d` in steps of two. -/
abbrev Front := Array Nat

namespace Front

/-- How far the search gets on the diagonal `k`, if `d` edits can reach it. -/
def on? (front : Front) (d : Nat) (k : Int) : Option Nat :=
  if k.natAbs ≤ d then front[((d - k) / 2).toNat]? else none

/-- Where the search enters the `i`-th diagonal with its `d`-th edit, given the front that it has
with one edit less. It comes from the neighbour that is further on, by an insertion if both are
equally far or the insertion is the only way, and otherwise by a deletion. -/
def enter (front : Front) (d i : Nat) : Nat :=
  if d = 0 then 0
  else if i = d ∨ (i ≠ 0 ∧ front.getD i 0 < front.getD (i - 1) 0) then front.getD (i - 1) 0
  else front.getD i 0 + 1

end Front

/-- How many lines agree from position `x` of the old and position `y` of the new sequence on. -/
def agreement (old new : Array Text) (x y : Nat) : Nat :=
  if _h : x < old.size ∧ y < new.size then
    if old[x] = new[y] then agreement old new (x + 1) (y + 1) + 1 else 0
  else 0
termination_by old.size - x

/-- One round of a search: for each diagonal the position where it is entered and the position up
to which the lines agree from there. -/
def round (old new : Array Text) (front : Front) (d : Nat) : Array (Nat × Nat) :=
  (Array.range (d + 1)).map fun i =>
    let x := front.enter d i
    (x, x + agreement old new x (x + 2 * i - d))

/-- The first diagonal, with its index, on which this round's search and the other one, which has
made `e` edits, overlap. -/
def overlap? (size : Nat) (shift : Int) (mine : Array (Nat × Nat)) (d : Nat) (other : Front)
    (e : Nat) : Option (Nat × Nat × Nat) :=
  (List.range (d + 1)).findSome? fun i => do
    let (start, stop) ← mine[i]?
    let far ← other.on? e (shift - ((d : Int) - 2 * i))
    if stop + far ≥ size then some (i, start, stop) else none

/-- The rounds of both searches from the `d`-th on, at most `rounds` of them. Sequences whose
lengths differ by an odd number meet in the search from the front, others in the search from the
back. -/
def meet? (old new back wen : Array Text) (rounds d : Nat) (front rear : Front) :
    Option (Nat × Nat) :=
  match rounds with
  | 0 => none
  | rounds + 1 =>
      let shift : Int := (old.size : Int) - new.size
      let odd := shift % 2 != 0
      let forward := round old new front d
      let met :=
        if odd && d != 0 then overlap? old.size shift forward d rear (d - 1) else none
      match met with
      | some (i, x, _) => some (x, x + 2 * i - d)
      | none =>
          let front := forward.map (·.2)
          let backward := round back wen rear d
          let met := if odd then none else overlap? old.size shift backward d front d
          match met with
          | some (i, _, x) => some (old.size - x, new.size - (x + 2 * i - d))
          | none => meet? old new back wen rounds (d + 1) front (backward.map (·.2))

/-- A point where a short script for the two sequences can be cut in two. -/
def cut? (old new : List Text) : Option (Nat × Nat) :=
  meet? old.toArray new.toArray old.reverse.toArray new.reverse.toArray
    ((old.length + new.length + 1) / 2 + 1) 0 #[] #[]

/-- The step that keeps the given lines, if there are any. -/
def keepRun (ls : List Text) : Script := if ls = [] then [] else [.keep ls]

/-- Two sequences, split into what they have in common at both ends and the rest of each. -/
structure Frame where
  head : List Text
  old : List Text
  new : List Text
  tail : List Text

namespace Frame

def of (old new : List Text) : Frame :=
  let head := commonHead old new
  let tail := commonTail (old.drop head.length) (new.drop head.length)
  { head, tail
    old := (old.drop head.length).take (old.length - head.length - tail.length)
    new := (new.drop head.length).take (new.length - head.length - tail.length) }

theorem length_old_le (old new : List Text) : (of old new).old.length ≤ old.length := by
  simp [of]
  omega

theorem length_new_le (old new : List Text) : (of old new).new.length ≤ new.length := by
  simp [of]
  omega

theorem old_eq (old new : List Text) :
    (of old new).head ++ (of old new).old ++ (of old new).tail = old := by
  have head := List.prefix_iff_eq_append.1 (commonHead_prefix_left old new)
  have tail := List.suffix_iff_eq_append.1 (commonTail_suffix_left
    (old.drop (commonHead old new).length) (new.drop (commonHead old new).length))
  rw [List.length_drop] at tail
  simp only [of]
  rw [List.append_assoc, tail, head]

theorem new_eq (old new : List Text) :
    (of old new).head ++ (of old new).new ++ (of old new).tail = new := by
  have head := List.prefix_iff_eq_append.1 (commonHead_prefix_right old new)
  have tail := List.suffix_iff_eq_append.1 (commonTail_suffix_right
    (old.drop (commonHead old new).length) (new.drop (commonHead old new).length))
  rw [List.length_drop] at tail
  simp only [of]
  rw [List.append_assoc, tail, head]

end Frame

/-- A short script between two sequences: what they have in common at both ends is kept, and the
rest is cut in two where the search says so. -/
def between (old new : List Text) : Script :=
  let f := Frame.of old new
  keepRun f.head
    ++ (if f.old = [] ∧ f.new = [] then []
      else if f.new = [] then [.delete f.old]
      else if f.old = [] then [.insert f.new]
      else
        match cut? f.old f.new with
        | some (x, y) =>
            if 0 < x + y ∧ x ≤ f.old.length ∧ y ≤ f.new.length
                ∧ x + y < f.old.length + f.new.length then
              between (f.old.take x) (f.new.take y) ++ between (f.old.drop x) (f.new.drop y)
            else [.delete f.old, .insert f.new]
        | none => [.delete f.old, .insert f.new])
    ++ keepRun f.tail
termination_by old.length + new.length
decreasing_by
  all_goals
    have hf : Frame.of old new = f := rfl
    have ho := Frame.length_old_le old new
    have hn := Frame.length_new_le old new
    simp only [hf, List.length_take, List.length_drop] at ho hn ⊢
    omega

@[simp] theorem old_keepRun (ls : List Text) : Script.old (keepRun ls) = ls := by
  unfold keepRun
  split <;> simp_all [Edit.old]

@[simp] theorem new_keepRun (ls : List Text) : Script.new (keepRun ls) = ls := by
  unfold keepRun
  split <;> simp_all [Edit.new]

theorem old_between (old new : List Text) : (between old new).old = old := by
  fun_induction between old new with
  | case1 old new f ihl ihr =>
      have h : f.head ++ f.old ++ f.tail = old := Frame.old_eq old new
      simp only [Script.old_append, old_keepRun]
      refine Eq.trans ?_ h
      congr 2
      split
      · next hon => simp [hon]
      · split
        · next => simp [Edit.old]
        · split
          · next ho => simp [ho, Edit.old]
          · split
            · split
              · next hcut =>
                rw [Script.old_append, ihl _ _ hcut, ihr _ _ hcut, List.take_append_drop]
              · simp [Edit.old]
            · simp [Edit.old]

theorem new_between (old new : List Text) : (between old new).new = new := by
  fun_induction between old new with
  | case1 old new f ihl ihr =>
      have h : f.head ++ f.new ++ f.tail = new := Frame.new_eq old new
      simp only [Script.new_append, new_keepRun]
      refine Eq.trans ?_ h
      congr 2
      split
      · next hon => simp [hon]
      · split
        · next hn => simp [hn, Edit.new]
        · split
          · next => simp [Edit.new]
          · split
            · split
              · next hcut =>
                rw [Script.new_append, ihl _ _ hcut, ihr _ _ hcut, List.take_append_drop]
              · simp [Edit.new]
            · simp [Edit.new]

end SamplerPorts.Diff
