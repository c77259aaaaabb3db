import Mathlib.Data.List.Nodup
import SamplerPorts.Proofs.Disk.Following
import SamplerPorts.Proofs.Walking

/-!
Where the walk comes to. It comes into a directory along the names that lead there, and a link takes
it only to a directory that it did not come through (`Enters`). The names that lead to an entry of
such a directory are what the walk lists (`mem_walk_iff`), and it lists each of them once
(`nodup_walk`). Where no depth is given it still goes down to all of them, because no path leads
through more than forty links and between two of them it goes down the tree (`length_add_le`).
-/

namespace SamplerPorts.Disk

/-- The names lead from the directory of the root to the location, on a path that meets no more
links than any path may. -/
def LeadsTo (d : Disk) (root : Path) (names : List Name) (loc : Location) : Prop :=
  ∃ start links l, d.resolve .read root = .ok (.entry start, links) ∧
    d.follow .read links start (names.map Name.text) = .ok (.entry loc, l)

/-- The walk from the root comes along the names into the directory, through the directories of the
trail. -/
inductive Enters (d : Disk) (root : Path) : List Name → Location → List Location → Prop
  | root {dir : Location} (start : d.LeadsTo root [] dir) (directory : d.isDirectory dir = true) :
      Enters d root [] dir []
  | directory {names : List Name} {dir : Location} {trail : List Location} {name : Name}
      (before : Enters d root names dir trail) (shown : name.isHidden = false)
      (entry : d.find? (name :: dir) = some .directory) :
      Enters d root (names ++ [name]) (name :: dir) (dir :: trail)
  | link {names : List Name} {dir sub : Location} {trail : List Location} {name : Name}
      {target : Path} (before : Enters d root names dir trail) (shown : name.isHidden = false)
      (entry : d.find? (name :: dir) = some (.link target))
      (leads : d.LeadsTo root (names ++ [name]) sub) (directory : d.isDirectory sub = true)
      (fresh : sub ∉ dir :: trail) :
      Enters d root (names ++ [name]) sub (dir :: trail)

/-- The names lead to an entry of a directory that the walk comes into. Only the directories on the
way are asked for, so the entry can be of any kind. -/
def Finds (d : Disk) (root : Path) (names : List Name) : Prop :=
  ∃ before name dir trail, names = before ++ [name] ∧ d.Enters root before dir trail ∧
    name.isHidden = false ∧ d.find? (name :: dir) ≠ none

variable {d : Disk} {root : Path} {links l depth : Nat} {trail : List Location}
  {start dir sub : Location} {name : Name} {names before : List Name}

theorem le_foldl_max (ns : List Nat) (m : Nat) :
    m ≤ ns.foldl max m ∧ ∀ n ∈ ns, n ≤ ns.foldl max m := by
  induction ns generalizing m with
  | nil => simp
  | cons n ns ih =>
      obtain ⟨hm, hns⟩ := ih (max m n)
      rw [List.foldl_cons, List.forall_mem_cons]
      exact ⟨by omega, by omega, hns⟩

theorem le_height {loc : Location} (h : d.find? loc ≠ none) : loc.length ≤ d.height := by
  cases loc with
  | nil => exact Nat.zero_le _
  | cons name dir =>
      rw [Ne, find?_eq_none_iff, Decidable.not_not] at h
      obtain ⟨e, he, hloc⟩ := List.mem_map.1 h
      rw [← hloc]
      exact (le_foldl_max _ 0).2 _ (List.mem_map.2 ⟨e, he, rfl⟩)

theorem le_height_of_isDirectory (h : d.isDirectory dir = true) : dir.length ≤ d.height := by
  rw [isDirectory, beq_iff_eq] at h
  exact le_height (by simp [h])

/-- A link takes one of the links that a path may meet. -/
theorem lt_of_follow_link {target : Path} (hdir : d.isDirectory dir = true)
    (hlink : d.find? (name :: dir) = some (.link target))
    (h : d.follow .read links dir [name.text] = .ok (.entry sub, l)) : l < links := by
  rw [follow_cons, next, hdir, Name.ofText?_text] at h
  cases links with
  | zero => simp [hlink] at h
  | succ links =>
      simp only [hlink, reduceCtorEq, false_and, if_false] at h
      exact Nat.lt_succ_of_le (le_of_follow h)

/-- A directory is entered one level down, and a link at the cost of a link. -/
theorem enter?_cases (hdir : d.isDirectory dir = true)
    (h : d.enter? links trail dir name = some (sub, l)) :
    (d.find? (name :: dir) = some .directory ∧ sub = name :: dir ∧ l = links) ∨
      ∃ target, d.find? (name :: dir) = some (.link target) ∧ l < links ∧ sub ∉ trail := by
  obtain ⟨hfollow, -, hcase⟩ := (enter?_eq_some_iff hdir).1 h
  cases he : d.find? (name :: dir) with
  | none => exact absurd he (mem_children_iff.1 (mem_children_of_enter? h))
  | some e =>
      cases e with
      | directory =>
          rw [follow_name hdir he (by simp)] at hfollow
          cases hfollow
          exact .inl ⟨rfl, rfl, rfl⟩
      | file content =>
          rw [enter?, he] at h
          cases h
      | link target =>
          rw [he] at hcase
          exact .inr ⟨target, rfl, lt_of_follow_link hdir he hfollow, by simpa using hcase⟩

/-- Between two links the walk goes down the tree, so it ends at a depth that the links decide. -/
theorem length_add_le (hdir : d.isDirectory dir = true)
    (h : names ∈ d.below depth links trail dir) :
    names.length + dir.length ≤ (links + 1) * (d.height + 1) := by
  induction depth generalizing links trail dir names with
  | zero => cases h
  | succ depth ih =>
      have hheight := le_height_of_isDirectory hdir
      rw [Nat.add_one_mul]
      obtain ⟨name, -, -, rfl | ⟨sub, l, more, henter, hmore, rfl⟩⟩ := mem_below_succ_iff.1 h
      · rw [List.length_singleton]
        omega
      · have hbelow := ih ((enter?_eq_some_iff hdir).1 henter).2.1 hmore
        rw [Nat.add_one_mul] at hbelow
        rw [List.length_cons]
        obtain ⟨-, rfl, rfl⟩ | ⟨target, -, hlt, -⟩ := enter?_cases hdir henter
        · rw [List.length_cons] at hbelow
          omega
        · have := Nat.mul_le_mul_right (d.height + 1) (Nat.succ_le_of_lt hlt)
          rw [Nat.succ_mul] at this
          omega

/-- A depth that is at least the number of the names is as good as any other one. -/
theorem mem_below_of_length_le {n : Nat} (h : names ∈ d.below depth links trail dir)
    (hle : names.length ≤ n) : names ∈ d.below n links trail dir := by
  induction n generalizing depth links trail dir names with
  | zero =>
      have := (length_of_mem_below h).1
      omega
  | succ n ih =>
      cases depth with
      | zero => cases h
      | succ depth =>
          obtain ⟨name, hname, hhidden, hcase⟩ := mem_below_succ_iff.1 h
          refine mem_below_succ_iff.2 ⟨name, hname, hhidden, ?_⟩
          obtain rfl | ⟨sub, l, more, henter, hmore, rfl⟩ := hcase
          · exact .inl rfl
          · exact .inr ⟨sub, l, more, henter, ih hmore (by simpa using hle), rfl⟩

namespace Enters

theorem exists_root (h : d.Enters root names dir trail) :
    ∃ start, d.LeadsTo root [] start ∧ d.isDirectory start = true := by
  induction h with
  | root hstart hdir => exact ⟨_, hstart, hdir⟩
  | directory _ _ _ ih | link _ _ _ _ _ _ ih => exact ih

theorem isDirectory (h : d.Enters root names dir trail) : d.isDirectory dir = true := by
  cases h with
  | root _ hdir | link _ _ _ _ hdir _ => exact hdir
  | directory _ _ hentry => rw [Disk.isDirectory, hentry]; rfl

theorem leadsTo (h : d.Enters root names dir trail) : d.LeadsTo root names dir := by
  induction h with
  | root hstart => exact hstart
  | directory hbefore _ hentry ih =>
      obtain ⟨start, links, l, hroot, hfollow⟩ := ih
      refine ⟨start, links, l, hroot, ?_⟩
      rw [List.map_append, follow_append hfollow]
      exact follow_name hbefore.isDirectory hentry (by simp)
  | link _ _ _ hleads => exact hleads

/-- Behind the names up to an entry that is entered, the walk is where they lead to. -/
theorem step (h : d.Enters root before dir trail)
    (hroot : d.resolve .read root = .ok (.entry start, links)) {k : Nat}
    (hfollow : d.follow .read links start (before.map Name.text) = .ok (.entry dir, k))
    (hhidden : name.isHidden = false) (henter : d.enter? k (dir :: trail) dir name = some (sub, l)) :
    d.Enters root (before ++ [name]) sub (dir :: trail) ∧
      d.follow .read links start ((before ++ [name]).map Name.text) = .ok (.entry sub, l) := by
  obtain ⟨hname, hsub, -⟩ := (enter?_eq_some_iff h.isDirectory).1 henter
  have hlong : d.follow .read links start ((before ++ [name]).map Name.text) =
      .ok (.entry sub, l) := by
    rw [List.map_append, follow_append hfollow]
    exact hname
  refine ⟨?_, hlong⟩
  obtain ⟨hentry, rfl, rfl⟩ | ⟨target, hentry, -, hfresh⟩ := enter?_cases h.isDirectory henter
  · exact .directory h hhidden hentry
  · exact .link h hhidden hentry ⟨start, links, l, hroot, hlong⟩ hsub hfresh

end Enters

theorem finds_of_mem_below (hroot : d.resolve .read root = .ok (.entry start, links))
    (h : d.Enters root before dir trail)
    (hfollow : d.follow .read links start (before.map Name.text) = .ok (.entry dir, l))
    (hmem : names ∈ d.below depth l (dir :: trail) dir) : d.Finds root (before ++ names) := by
  induction depth generalizing before l trail dir names with
  | zero => cases hmem
  | succ depth ih =>
      obtain ⟨name, hname, hhidden, rfl | ⟨sub, k, more, henter, hmore, rfl⟩⟩ :=
        mem_below_succ_iff.1 hmem
      · exact ⟨before, name, dir, trail, rfl, h, hhidden, mem_children_iff.1 hname⟩
      · obtain ⟨hsub, hlong⟩ := h.step hroot hfollow hhidden henter
        have := ih hsub hlong hmore
        rwa [List.append_assoc] at this

/-- The walk that lists everything below a directory also lists it from one level up. -/
theorem append_mem_below_of_enter? {k : Nat} (hhidden : name.isHidden = false)
    (henter : d.enter? k trail dir name = some (sub, l))
    (hbefore : ∀ n names, names ∈ d.below n k trail dir →
      before ++ names ∈ d.below (before.length + n) links [start] start)
    (hmem : names ∈ d.below depth l (sub :: trail) sub) :
    before ++ [name] ++ names ∈ d.below ((before ++ [name]).length + depth) links [start] start := by
  have hcons : name :: names ∈ d.below (depth + 1) k trail dir :=
    mem_below_succ_iff.2 ⟨name, mem_children_of_enter? henter, hhidden,
      .inr ⟨sub, l, names, henter, hmem, rfl⟩⟩
  have hlength : (before ++ [name]).length + depth = before.length + (depth + 1) := by
    rw [List.length_append, List.length_singleton]
    omega
  rw [List.append_assoc, List.singleton_append, hlength]
  exact hbefore (depth + 1) (name :: names) hcons

/-- Whatever is below a directory that the walk comes into is below the root. -/
theorem Enters.append_mem_below (hroot : d.resolve .read root = .ok (.entry start, links))
    (h : d.Enters root before dir trail) :
    ∃ l, d.follow .read links start (before.map Name.text) = .ok (.entry dir, l) ∧
      ∀ depth names, names ∈ d.below depth l (dir :: trail) dir →
        before ++ names ∈ d.below (before.length + depth) links [start] start := by
  induction h with
  | root hleads =>
      obtain ⟨start', links', l, hroot', hfollow⟩ := hleads
      cases hroot.symm.trans hroot'
      rw [List.map_nil, follow] at hfollow
      cases hfollow
      refine ⟨links, follow.eq_1 .., fun depth names hmem => ?_⟩
      rwa [List.nil_append, List.length_nil, Nat.zero_add]
  | directory hbefore hhidden hentry ih =>
      obtain ⟨k, hfollow, hbelow⟩ := ih
      refine ⟨k, ?_, fun depth names =>
        append_mem_below_of_enter? hhidden (by rw [enter?, hentry]) hbelow⟩
      rw [List.map_append, follow_append hfollow]
      exact follow_name hbefore.isDirectory hentry (by simp)
  | link hbefore hhidden hentry hleads hsub hfresh ih =>
      obtain ⟨k, hfollow, hbelow⟩ := ih
      obtain ⟨start', links', l, hroot', hlong⟩ := hleads
      cases hroot.symm.trans hroot'
      refine ⟨l, hlong, fun depth names => append_mem_below_of_enter? hhidden ?_ hbelow⟩
      rw [List.map_append, follow_append hfollow] at hlong
      exact (enter?_eq_some_iff hbefore.isDirectory).2 ⟨hlong, hsub, .inr hfresh⟩

theorem le_maxLinks_of_resolve (h : d.resolve .read root = .ok (.entry start, links)) :
    links ≤ maxLinks := by
  rw [resolve] at h
  split at h
  · cases h
  · split at h
    · cases h
    · exact le_of_follow h

/-- The walk lists what it finds, down to the depth that is given. -/
theorem mem_walk_iff {depth : Option Nat} :
    names ∈ d.walk root depth ↔ d.Finds root names ∧ ∀ n ∈ depth, names.length ≤ n := by
  constructor
  · intro h
    rw [walk] at h
    split at h
    · next start links hroot =>
      split at h
      · next hstart =>
        have henters : d.Enters root [] start [] :=
          .root ⟨start, links, links, hroot, follow.eq_1 ..⟩ hstart
        refine ⟨finds_of_mem_below hroot henters (follow.eq_1 ..) h, fun n hn => ?_⟩
        rw [Option.mem_def] at hn
        rw [hn] at h
        exact (length_of_mem_below h).2
      · cases h
    · cases h
  · rintro ⟨⟨before, name, dir, trail, rfl, henters, hhidden, hentry⟩, hdepth⟩
    obtain ⟨start, ⟨start', links, l, hroot, hfollow⟩, hstart⟩ := henters.exists_root
    rw [List.map_nil, follow] at hfollow
    cases hfollow
    obtain ⟨k, -, hbelow⟩ := henters.append_mem_below hroot
    have hmem := hbelow 1 [name]
      (single_mem_below_one_iff.2 ⟨mem_children_iff.2 hentry, hhidden⟩)
    rw [walk, hroot]
    simp only [hstart, if_true]
    refine mem_below_of_length_le hmem ?_
    cases depth with
    | some n => exact hdepth n rfl
    | none =>
        have hlinks := Nat.mul_le_mul_right (d.height + 1)
          (Nat.succ_le_succ (le_maxLinks_of_resolve hroot))
        exact Nat.le_trans (Nat.le_add_right ..) (Nat.le_trans (length_add_le hstart hmem) hlinks)

theorem nodup_children (d : Disk) (dir : Location) : (d.children dir).Nodup := by
  have hchildren : d.children dir = (d.entries.map (·.1)).filterMap (nameIn? dir) := by
    rw [List.filterMap_map]
    rfl
  rw [hchildren]
  refine d.nodup.filterMap fun loc loc' name h h' => ?_
  cases loc with
  | nil => cases h
  | cons n parent =>
      cases loc' with
      | nil => cases h'
      | cons n' parent' =>
          simp only [nameIn?, Option.mem_def, Option.ite_none_right_eq_some, Option.some.injEq] at h h'
          obtain ⟨rfl, rfl⟩ := h
          obtain ⟨rfl, rfl⟩ := h'
          rfl

/-- What the walk lists for one name of a directory. -/
def through (d : Disk) (depth links : Nat) (trail : List Location) (dir : Location) (name : Name) :
    List (List Name) :=
  if name.isHidden then []
  else [name] :: (d.enter? links trail dir name).elim [] fun (sub, l) =>
    (d.below depth l (sub :: trail) sub).map (name :: ·)

theorem below_succ (d : Disk) (depth links : Nat) (trail : List Location) (dir : Location) :
    d.below (depth + 1) links trail dir =
      (d.children dir).flatMap (d.through depth links trail dir) := by
  rw [below]
  congr 1
  funext name
  rw [through]
  cases d.enter? links trail dir name <;> rfl

theorem head?_of_mem_through (h : names ∈ d.through depth links trail dir name) :
    names.head? = some name := by
  rw [through] at h
  split at h
  · cases h
  · cases henter : d.enter? links trail dir name with
    | none => simp_all
    | some r =>
        rw [henter, Option.elim_some] at h
        obtain rfl | h := List.mem_cons.1 h
        · rfl
        · obtain ⟨more, -, rfl⟩ := List.mem_map.1 h
          rfl

theorem nodup_below (d : Disk) (depth links : Nat) (trail : List Location) (dir : Location) :
    (d.below depth links trail dir).Nodup := by
  induction depth generalizing links trail dir with
  | zero => exact List.nodup_nil
  | succ depth ih =>
      rw [below_succ, List.nodup_flatMap]
      refine ⟨fun name _ => ?_, ?_⟩
      · rw [through]
        split
        · exact List.nodup_nil
        · cases d.enter? links trail dir name with
          | none => exact List.nodup_singleton _
          | some r =>
              refine List.nodup_cons.2 ⟨fun hmem => ?_, (ih ..).map List.cons_injective⟩
              obtain ⟨more, hmore, hnil⟩ := List.mem_map.1 hmem
              cases hnil
              exact absurd (length_of_mem_below hmore).1 (by simp)
      · refine (nodup_children d dir).imp fun hne names h h' => hne ?_
        exact Option.some.inj ((head?_of_mem_through h).symm.trans (head?_of_mem_through h'))

theorem nodup_walk (d : Disk) (root : Path) (depth : Option Nat) : (d.walk root depth).Nodup := by
  rw [walk]
  split
  · split
    · exact nodup_below ..
    · exact List.nodup_nil
  · exact List.nodup_nil

theorem Finds.ne_nil (h : d.Finds root names) : names ≠ [] := by
  obtain ⟨before, name, -, -, rfl, -⟩ := h
  simp

end SamplerPorts.Disk
