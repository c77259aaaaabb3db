import SamplerPorts.Diff.Unified
import SamplerPorts.Proofs.Diff.Deletions

/-!
What a patch shows. Every line of the two texts has a mark: it is kept, deleted or inserted. A patch
shows hunks of marked lines and leaves lines out before, between and behind them, but only kept ones
(`exists_patch_groups`). So the two texts can be put together again from the hunks and the gaps, and
the hunks show as many deleted lines as the summary counts (`unified_is_patch`).
-/

namespace SamplerPorts.Diff

/-- What becomes of a line. -/
inductive Mark where
  | kept
  | deleted
  | inserted
  deriving DecidableEq

namespace Mark

/-- The sign in front of a line that is shown. -/
def sign : Mark → Char
  | kept => ' '
  | deleted => '-'
  | inserted => '+'

/-- Whether a line with the mark is in the old text. -/
def isOld (m : Mark) : Bool := m != inserted

def isNew (m : Mark) : Bool := m != deleted

def isDeleted (m : Mark) : Bool := m == deleted

end Mark

structure MarkedLine where
  mark : Mark
  line : Text

namespace MarkedLine

/-- The lines with some of the marks, in their order. -/
def select (p : Mark → Bool) (ls : List MarkedLine) : List Text :=
  (ls.filter (p ·.mark)).map (·.line)

/-- The line as a patch shows it: behind its sign, and with a line feed if it has no end. -/
def text (l : MarkedLine) : Text :=
  l.mark.sign ::
    if l.line.getLast? = some '\n' ∨ l.line.getLast? = some '\r' then l.line else l.line ++ ['\n']

def shown (ls : List MarkedLine) : Text := ls.flatMap text

theorem text_mk (m : Mark) (line : Text) : text ⟨m, line⟩ = signed m.sign line := by
  rw [text, signed, isEnded]
  split <;> simp_all

/-- Some lines with the same mark. -/
def all (m : Mark) (ls : List Text) : List MarkedLine := ls.map (⟨m, ·⟩)

section
variable (p : Mark → Bool) (m : Mark) (as bs : List MarkedLine) (ls : List Text)

@[simp] theorem select_append : select p (as ++ bs) = select p as ++ select p bs := by
  simp [select]

@[simp] theorem shown_append : shown (as ++ bs) = shown as ++ shown bs := List.flatMap_append

@[simp] theorem select_flatMap {α : Type} (f : α → List MarkedLine) (xs : List α) :
    select p (xs.flatMap f) = xs.flatMap fun x => select p (f x) := by
  simp [select, List.filter_flatMap, List.map_flatMap]

@[simp] theorem shown_flatMap {α : Type} (f : α → List MarkedLine) (xs : List α) :
    shown (xs.flatMap f) = xs.flatMap fun x => shown (f x) := List.flatMap_assoc

@[simp] theorem all_nil : all m [] = [] := rfl

@[simp] theorem all_append (ks : List Text) : all m (ks ++ ls) = all m ks ++ all m ls :=
  List.map_append

@[simp] theorem select_all : select p (all m ls) = if p m then ls else [] := by
  cases h : p m <;> simp [select, all, List.filter_map, Function.comp_def, h]

@[simp] theorem shown_all : shown (all m ls) = ls.flatMap (signed m.sign) := by
  simp [shown, all, List.flatMap_map, text_mk]

end

end MarkedLine

open MarkedLine

namespace Change

/-- The lines of a change with their marks. -/
def marked : Change → List MarkedLine
  | same ls => all .kept ls
  | replace old new => all .deleted old ++ all .inserted new

variable (c : Change)

@[simp] theorem old_marked : select Mark.isOld c.marked = c.old := by
  cases c <;> simp [marked, old, Mark.isOld]

@[simp] theorem new_marked : select Mark.isNew c.marked = c.new := by
  cases c <;> simp [marked, new, Mark.isNew]

@[simp] theorem deleted_marked : select Mark.isDeleted c.marked = c.deleted := by
  cases c <;> simp [marked, deleted, Mark.isDeleted]

@[simp] theorem shown_marked : shown c.marked = c.show := by
  cases c <;> simp [marked, Change.show, Mark.sign]

end Change

/-- The hunks of a patch with the lines that are left out: before the first hunk, and in the gap
behind each of them. -/
structure Patch where
  lead : List Text
  hunks : List (List MarkedLine × List Text)

namespace Patch

/-- The lines of the old text, put together from the hunks and the gaps. -/
def old (p : Patch) : List Text :=
  p.lead ++ p.hunks.flatMap fun (hunk, gap) => select Mark.isOld hunk ++ gap

def new (p : Patch) : List Text :=
  p.lead ++ p.hunks.flatMap fun (hunk, gap) => select Mark.isNew hunk ++ gap

/-- The deleted lines, which are all in the hunks. -/
def deleted (p : Patch) : List Text :=
  p.hunks.flatMap fun (hunk, _) => select Mark.isDeleted hunk

/-- The hunks one after the other, with a line feed between them. -/
def text (p : Patch) : Text := Text.join ['\n'] (p.hunks.map fun (hunk, _) => shown hunk)

/-- All lines with their marks. The lines that are left out are kept ones. -/
def marked (p : Patch) : List MarkedLine :=
  all .kept p.lead ++ p.hunks.flatMap fun (hunk, gap) => hunk ++ all .kept gap

variable (p : Patch)

theorem old_marked : select Mark.isOld p.marked = p.old := by simp [marked, old, Mark.isOld]

theorem new_marked : select Mark.isNew p.marked = p.new := by simp [marked, new, Mark.isNew]

theorem deleted_marked : select Mark.isDeleted p.marked = p.deleted := by
  simp [marked, deleted, Mark.isDeleted]

/-- More lines can be left out behind the last hunk. -/
theorem exists_append (gap : List Text) :
    ∃ q : Patch, q.hunks.map Prod.fst = p.hunks.map Prod.fst ∧
      q.marked = p.marked ++ all .kept gap := by
  obtain ⟨lead, hunks⟩ := p
  obtain rfl | ⟨before, ⟨hunk, last⟩, rfl⟩ := List.eq_nil_or_concat hunks
  · exact ⟨⟨lead ++ gap, []⟩, rfl, by simp [marked]⟩
  · exact ⟨⟨lead, before ++ [(hunk, last ++ gap)]⟩, by simp, by simp [marked]⟩

end Patch

/-- A long run of lines shows its context at both ends. -/
theorem exists_middle {ls : List Text} (h : ls.length > 2 * context) :
    ∃ middle, ls = ls.take context ++ (middle ++ ls.drop (ls.length - context)) := by
  obtain ⟨middle, hmiddle⟩ : ls.take context <+: ls.take (ls.length - context) :=
    List.take_prefix_take_left (by omega)
  exact ⟨middle, by rw [← List.append_assoc, hmiddle, List.take_append_drop]⟩

/-- Groups of changes are the hunks of a patch: where a group ends, the lines up to the next one are
left out. -/
theorem exists_patch_groupsFrom (pending cs : List Change) :
    ∃ p : Patch, p.hunks.map Prod.fst = (groupsFrom pending cs).map (·.flatMap Change.marked) ∧
      p.marked = (pending ++ cs).flatMap Change.marked := by
  fun_induction groupsFrom pending cs with
  | case1 => exact ⟨⟨[], []⟩, rfl, rfl⟩
  | case2 ls => exact ⟨⟨ls, []⟩, rfl, by simp [Patch.marked, Change.marked]⟩
  | case3 group => exact ⟨⟨[], [(group.flatMap Change.marked, [])]⟩, rfl, by simp [Patch.marked]⟩
  | case4 pending ls cs hlong ih =>
      obtain ⟨⟨lead, hunks⟩, hhunks, hmarked⟩ := ih
      obtain ⟨middle, hls⟩ := exists_middle hlong
      refine ⟨⟨[], ((pending ++ [Change.same (ls.take context)]).flatMap Change.marked,
        middle ++ lead) :: hunks⟩, congrArg _ hhunks, ?_⟩
      have hsame : all .kept ls = all .kept (ls.take context) ++
          (all .kept middle ++ all .kept (ls.drop (ls.length - context))) := by
        rw [← all_append, ← all_append, ← hls]
      simp only [Patch.marked] at hmarked
      simp [Patch.marked, Change.marked, hmarked, hsame]
  | case5 pending ls cs hshort ih =>
      obtain ⟨p, hhunks, hmarked⟩ := ih
      exact ⟨p, hhunks, by rw [hmarked, List.append_assoc]; rfl⟩
  | case6 pending c cs hreplace ih =>
      obtain ⟨p, hhunks, hmarked⟩ := ih
      exact ⟨p, hhunks, by rw [hmarked, List.append_assoc]; rfl⟩

/-- Cutting the two ends to their context leaves out kept lines only. -/
theorem Change.exists_trimEnds (cs : List Change) :
    ∃ front back, cs.flatMap marked =
      all .kept front ++ ((trimEnds cs).flatMap marked ++ all .kept back) := by
  have hfront (cs : List Change) : ∃ front, cs.flatMap marked =
      all .kept front ++ (cs.modifyHead keepLast).flatMap marked := by
    obtain _ | ⟨ls | ⟨os, ns⟩, cs⟩ := cs
    · exact ⟨[], rfl⟩
    · refine ⟨ls.take (ls.length - context), ?_⟩
      simp [keepLast, marked, ← List.append_assoc, ← all_append]
    · exact ⟨[], rfl⟩
  have hback (cs : List Change) : ∃ back, cs.flatMap marked =
      (cs.reverse.modifyHead keepFirst).reverse.flatMap marked ++ all .kept back := by
    obtain rfl | ⟨cs, ls | ⟨os, ns⟩, rfl⟩ := List.eq_nil_or_concat cs
    · exact ⟨[], rfl⟩
    · refine ⟨ls.drop context, ?_⟩
      simp [keepFirst, marked, ← all_append]
    · exact ⟨[], by simp [keepFirst]⟩
  obtain ⟨front, hfront⟩ := hfront cs
  obtain ⟨back, hback⟩ := hback (cs.modifyHead keepLast)
  exact ⟨front, back, by rw [hfront, hback, trimEnds]⟩

theorem exists_patch_groups (cs : List Change) :
    ∃ p : Patch, p.hunks.map Prod.fst = (groups cs).map (·.flatMap Change.marked) ∧
      p.marked = cs.flatMap Change.marked := by
  obtain ⟨front, back, hcs⟩ := Change.exists_trimEnds cs
  obtain ⟨p, hhunks, hmarked⟩ := exists_patch_groupsFrom [] (Change.trimEnds cs)
  obtain ⟨q, hq, hqmarked⟩ := p.exists_append back
  refine ⟨⟨front ++ q.lead, q.hunks⟩, hq.trans hhunks, ?_⟩
  rw [hcs, ← List.nil_append (Change.trimEnds cs), ← hmarked, ← hqmarked]
  simp [Patch.marked]

/-- The difference of two texts is a patch: behind the header come its hunks, with a line feed
between them, and the lines of the two texts are those of the hunks and of the gaps. It shows as
many deleted lines as the summary counts. -/
theorem unified_is_patch (old new : Text) (path : Path) :
    ∃ p : Patch, unified old new path = header path ++ p.text ∧
      p.old = lines old ∧ p.new = lines new ∧
      p.old.flatten = old ∧ p.new.flatten = new ∧
      p.deleted.length = (Summary.of old new).lines := by
  obtain ⟨p, hhunks, hmarked⟩ := exists_patch_groups (changes old new)
  have hold : p.old = lines old := by
    rw [← p.old_marked, hmarked, select_flatMap, ← flatMap_old_changes old new]
    simp
  have hnew : p.new = lines new := by
    rw [← p.new_marked, hmarked, select_flatMap, ← flatMap_new_changes old new]
    simp
  have hshown : (groups (changes old new)).map (·.flatMap Change.show) =
      p.hunks.map fun (hunk, _) => shown hunk := by
    calc (groups (changes old new)).map (·.flatMap Change.show)
        = ((groups (changes old new)).map (·.flatMap Change.marked)).map shown := by
          simp [Function.comp_def]
      _ = (p.hunks.map Prod.fst).map shown := by rw [hhunks]
      _ = p.hunks.map fun (hunk, _) => shown hunk := by rw [List.map_map]; rfl
  refine ⟨p, by rw [unified, Patch.text, hshown], hold, hnew, ?_, ?_, ?_⟩
  · rw [hold, flatten_lines]
  · rw [hnew, flatten_lines]
  · rw [← p.deleted_marked, hmarked, select_flatMap]
    simp [Summary.of]

end SamplerPorts.Diff
