import SamplerPorts.Proofs.Disk.Resolution

/-!
Paths that go on. Where a path leads to an entry, a longer one is followed from there
(`follow_append`), with as many links left as the shorter one left. The links only get fewer, and a
path to a link that is read takes at least one of them (`lt_of_follow_link`). How many there are at
the start only matters to a path that meets too many (`map_fst_follow`).
-/

namespace SamplerPorts.Disk
variable {d : Disk} {links l : Nat} {place pl loc : Location} {piece : Text}
  {rest ps qs : List Text}

theorem next_append (h : d.next .read links place piece rest = .onward l pl ps)
    (qs : List Text) : d.next .read links place piece (rest ++ qs) = .onward l pl (ps ++ qs) := by
  rw [next] at h ⊢
  cases hd : d.isDirectory place with
  | false => simp [hd] at h
  | true =>
      cases hn : Name.ofText? piece with
      | none => simp_all
      | some name =>
          cases hf : d.find? (name :: place) with
          | none => simp [hd, hn, hf] at h
          | some e =>
              cases e with
              | directory | file content => simp_all
              | link target =>
                  cases links with
                  | zero => simp [hd, hn, hf] at h
                  | succ links =>
                      simp only [hd, hn, hf] at h ⊢
                      cases h
                      rw [List.append_assoc]
                      rfl

theorem follow_append (h : d.follow .read links place ps = .ok (.entry loc, l)) (qs : List Text) :
    d.follow .read links place (ps ++ qs) = d.follow .read l loc qs := by
  induction links, place, ps using followInduction d .read with
  | nil links place =>
      rw [follow] at h
      cases h
      rfl
  | cons links place piece rest ih =>
      rw [follow_cons] at h
      rw [List.cons_append, follow_cons]
      cases hnext : d.next .read links place piece rest with
      | done r =>
          rw [hnext] at h
          cases show r = _ from h
          cases purpose_of_next_eq_done hnext
      | onward l' pl ps =>
          rw [hnext] at h
          rw [next_append hnext]
          exact ih l' pl ps hnext h

theorem le_of_next (h : d.next .read links place piece rest = .onward l pl ps) : l ≤ links := by
  obtain ⟨-, ⟨-, rfl, -⟩ | ⟨name, -, ⟨target, -, rfl, -⟩ | ⟨-, rfl, -⟩⟩⟩ := next_eq_onward h
  · exact Nat.le_refl _
  · exact Nat.le_succ _
  · exact Nat.le_refl _

theorem le_of_follow (h : d.follow .read links place ps = .ok (.entry loc, l)) : l ≤ links := by
  induction links, place, ps using followInduction d .read with
  | nil links place =>
      rw [follow] at h
      cases h
      exact Nat.le_refl _
  | cons links place piece rest ih =>
      rw [follow_cons] at h
      cases hnext : d.next .read links place piece rest with
      | done r =>
          rw [hnext] at h
          cases show r = _ from h
          cases purpose_of_next_eq_done hnext
      | onward l' pl ps =>
          rw [hnext] at h
          exact Nat.le_trans (ih l' pl ps hnext h) (le_of_next hnext)

theorem next_append_of_done {r : Resolved} (h : d.next .read links place piece rest = .done r)
    (qs : List Text) : ∃ r', d.next .read links place piece (rest ++ qs) = .done r' := by
  rw [next] at h ⊢
  cases hd : d.isDirectory place with
  | false => exact ⟨_, rfl⟩
  | true =>
      cases hn : Name.ofText? piece with
      | none => simp [hd, hn] at h
      | some name =>
          cases hf : d.find? (name :: place) with
          | none => simp [hf]
          | some e =>
              cases e with
              | directory | file content => simp [hd, hn, hf] at h
              | link target =>
                  cases links with
                  | zero => simp [hf]
                  | succ links => simp [hd, hn, hf] at h

/-- A path that leads to an entry has led to one at each of its pieces. -/
theorem exists_follow_of_append (h : d.follow .read links place (ps ++ qs) = .ok (.entry loc, l)) :
    ∃ pl k, d.follow .read links place ps = .ok (.entry pl, k) ∧
      d.follow .read k pl qs = .ok (.entry loc, l) := by
  induction links, place, ps using followInduction d .read with
  | nil links place => exact ⟨place, links, follow.eq_1 .., h⟩
  | cons links place piece rest ih =>
      rw [List.cons_append, follow_cons] at h
      cases hnext : d.next .read links place piece rest with
      | done r =>
          obtain ⟨r', hnext'⟩ := next_append_of_done hnext qs
          rw [hnext'] at h
          cases show r' = _ from h
          cases purpose_of_next_eq_done hnext'
      | onward l' pl ps =>
          rw [next_append hnext] at h
          obtain ⟨pl', k, hps, hqs⟩ := ih l' pl ps hnext h
          refine ⟨pl', k, ?_, hqs⟩
          rw [follow_cons, hnext]
          exact hps

/-- A slash at the end of a path only asks for a directory. -/
theorem follow_of_concat_nil (h : d.follow .read links place (ps ++ [[]]) = .ok (.entry loc, l)) :
    d.follow .read links place ps = .ok (.entry loc, l) := by
  obtain ⟨pl, k, hps, hlast⟩ := exists_follow_of_append h
  rw [hps]
  cases hdir : d.isDirectory pl with
  | false =>
      rw [follow_of_not_isDirectory hdir (by simp)] at hlast
      cases hlast
  | true =>
      rw [follow_cons, next, hdir] at hlast
      exact (follow.eq_1 ..).symm.trans hlast

end SamplerPorts.Disk
