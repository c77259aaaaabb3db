import SamplerPorts.Discovery
import SamplerPorts.Proofs.Disk.Resolution

/-!
What the walk below a directory comes to. It lists the entries of the directory that are not
hidden, and behind each of them what is below it if it is entered (`mem_below_succ_iff`). An entry
is entered if it leads to a directory, a link only to one that the walk did not come through
(`enter?_eq_some_iff`).
-/

namespace SamplerPorts

theorem Name.ofText?_text (name : Name) : Name.ofText? name.text = some name := by
  rw [ofText?, dif_pos name.isProper]

theorem Name.eq_of_text {n k : Name} (h : n.text = k.text) : n = k := by
  cases n
  cases k
  cases h
  rfl

namespace Disk
variable {d : Disk} {links l : Nat} {trail : List Location} {dir sub : Location} {name : Name}

theorem mem_children_iff : name ∈ d.children dir ↔ d.find? (name :: dir) ≠ none := by
  rw [Ne, find?_eq_none_iff, Decidable.not_not, children, List.mem_filterMap, List.mem_map]
  constructor
  · rintro ⟨⟨_ | ⟨first, parent⟩, e⟩, he, hname⟩
    · cases hname
    · simp only [nameIn?, Option.ite_none_right_eq_some, Option.some.injEq] at hname
      obtain ⟨rfl, rfl⟩ := hname
      exact ⟨_, he, rfl⟩
  · rintro ⟨⟨loc, e⟩, he, rfl⟩
    exact ⟨_, he, by simp [nameIn?]⟩

theorem mem_children_of_enter? (h : d.enter? links trail dir name = some (sub, l)) :
    name ∈ d.children dir := by
  rw [mem_children_iff]
  intro hnone
  rw [enter?, hnone] at h
  cases h

/-- Following a single name leads to the entry itself unless it is a link. -/
theorem follow_name (hdir : d.isDirectory dir = true) {e : Entry}
    (he : d.find? (name :: dir) = some e) (hlink : ∀ target, e ≠ .link target) :
    d.follow .read links dir [name.text] = .ok (.entry (name :: dir), links) := by
  rw [follow_cons, next, hdir, Name.ofText?_text]
  cases e with
  | directory | file content =>
      simp only [he, reduceCtorEq, false_and, if_false]
      exact follow.eq_1 ..
  | link target => exact absurd rfl (hlink target)

theorem enter?_eq_some_iff (hdir : d.isDirectory dir = true) :
    d.enter? links trail dir name = some (sub, l) ↔
      d.follow .read links dir [name.text] = .ok (.entry sub, l) ∧ d.isDirectory sub = true ∧
        (d.find? (name :: dir) = some .directory ∨ sub ∉ trail) := by
  rw [enter?]
  cases he : d.find? (name :: dir) with
  | none =>
      rw [follow_cons, next, hdir, Name.ofText?_text]
      simp [he]
  | some e =>
      cases e with
      | directory =>
          rw [follow_name hdir he (by simp)]
          simp only [Option.some.injEq, Prod.mk.injEq, Except.ok.injEq, Destination.entry.injEq]
          constructor
          · rintro ⟨rfl, rfl⟩
            exact ⟨⟨rfl, rfl⟩, by simp [isDirectory, he], .inl trivial⟩
          · rintro ⟨h, -⟩
            exact h
      | file content =>
          rw [follow_name hdir he (by simp)]
          simp only [reduceCtorEq, Except.ok.injEq, Prod.mk.injEq, Destination.entry.injEq,
            false_iff]
          rintro ⟨⟨rfl, -⟩, hsub, -⟩
          simp [isDirectory, he] at hsub
      | link target =>
          obtain e | ⟨loc | ⟨parent, last⟩, l'⟩ := d.follow .read links dir [name.text]
          · simp
          · simp only [Except.ok.injEq, Prod.mk.injEq, Destination.entry.injEq,
              Option.ite_none_right_eq_some, Option.some.injEq, reduceCtorEq, false_or]
            constructor
            · rintro ⟨⟨hd, ht⟩, rfl, rfl⟩
              exact ⟨⟨rfl, rfl⟩, hd, ht⟩
            · rintro ⟨⟨rfl, rfl⟩, hd, ht⟩
              exact ⟨⟨hd, ht⟩, rfl, rfl⟩
          · simp

theorem mem_below_succ_iff {depth : Nat} {names : List Name} :
    names ∈ d.below (depth + 1) links trail dir ↔
      ∃ name ∈ d.children dir, name.isHidden = false ∧
        (names = [name] ∨ ∃ sub l more, d.enter? links trail dir name = some (sub, l) ∧
          more ∈ d.below depth l (sub :: trail) sub ∧ names = name :: more) := by
  rw [below, List.mem_flatMap]
  constructor
  · rintro ⟨name, hname, hmem⟩
    cases hh : name.isHidden with
    | true => simp [hh] at hmem
    | false =>
        refine ⟨name, hname, hh, ?_⟩
        rw [hh, if_neg (by decide)] at hmem
        obtain h | hmem := List.mem_cons.1 hmem
        · exact .inl h
        · cases he : d.enter? links trail dir name with
          | none => simp [he] at hmem
          | some r =>
              obtain ⟨sub, l⟩ := r
              rw [he] at hmem
              obtain ⟨more, hmore, rfl⟩ := List.mem_map.1 hmem
              exact .inr ⟨sub, l, more, rfl, hmore, rfl⟩
  · rintro ⟨name, hname, hh, hcase⟩
    refine ⟨name, hname, ?_⟩
    rw [hh, if_neg (by decide)]
    obtain rfl | ⟨sub, l, more, he, hmore, rfl⟩ := hcase
    · exact List.mem_cons_self ..
    · rw [he]
      exact List.mem_cons_of_mem _ (List.mem_map_of_mem hmore)

theorem length_of_mem_below {depth : Nat} {names : List Name}
    (h : names ∈ d.below depth links trail dir) : 1 ≤ names.length ∧ names.length ≤ depth := by
  induction depth generalizing links trail dir names with
  | zero => cases h
  | succ depth ih =>
      obtain ⟨name, -, -, rfl | ⟨sub, l, more, -, hmore, rfl⟩⟩ := mem_below_succ_iff.1 h
      · simp
      · have := ih hmore
        simp only [List.length_cons]
        omega

theorem single_mem_below_one_iff : [name] ∈ d.below 1 links trail dir ↔
    name ∈ d.children dir ∧ name.isHidden = false := by
  rw [mem_below_succ_iff]
  constructor
  · rintro ⟨n, hn, hh, h | ⟨sub, l, more, -, hmore, -⟩⟩
    · cases h
      exact ⟨hn, hh⟩
    · cases hmore
  · rintro ⟨hn, hh⟩
    exact ⟨name, hn, hh, .inl rfl⟩

theorem pair_mem_below_two_iff {inner : Name} : [name, inner] ∈ d.below 2 links trail dir ↔
    name ∈ d.children dir ∧ name.isHidden = false ∧
      ∃ sub l, d.enter? links trail dir name = some (sub, l) ∧ inner ∈ d.children sub ∧
        inner.isHidden = false := by
  rw [mem_below_succ_iff]
  constructor
  · rintro ⟨n, hn, hh, h | ⟨sub, l, more, henter, hmore, h⟩⟩
    · cases h
    · cases h
      exact ⟨hn, hh, sub, l, henter, single_mem_below_one_iff.1 hmore⟩
  · rintro ⟨hn, hh, sub, l, henter, hinner⟩
    exact ⟨name, hn, hh, .inr ⟨sub, l, [inner], henter, single_mem_below_one_iff.2 hinner, rfl⟩⟩

theorem walk_of_resolve {root : Path} (hroot : d.resolve .read root = .ok (.entry dir, links))
    (depth : Option Nat) :
    d.walk root depth =
      if d.isDirectory dir then d.below (depth.getD d.depthBound) links [dir] dir else [] := by
  rw [walk, hroot]

variable (d) in
theorem walk_here (depth : Option Nat) :
    d.walk (.ofString ".") depth =
      if d.isDirectory d.current then
        d.below (depth.getD d.depthBound) maxLinks [d.current] d.current
      else [] := by
  cases h : d.isDirectory d.current with
  | true => rw [walk_of_resolve (resolve_here h), h]
  | false =>
      obtain ⟨e, he⟩ := @resolve_of_not_isDirectory d .read (.ofString ".") rfl h
      rw [walk, he]
      rfl

end Disk
end SamplerPorts
